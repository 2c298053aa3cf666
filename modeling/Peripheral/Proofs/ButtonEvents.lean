import Peripheral.Proofs.ButtonReading

/-!
# `Peripheral.Proofs.ButtonEvents` — the aggregator hears well-formed button events

Nobody but the task of a button sends events of its key, and the input channel keeps them in order. So what the
aggregator has heard of a key, and what of it still waits in the channel, is what the button's task has sent, and
all that is known of the reading of a button holds of the events that are heard.

## Contents
- `Leg.deed`, `glances`: what a button's task saw and did in a course, read off the legs.
- `Input.pressed?`, `heardOf`, `World.waitingOf`, `postedBy`: the events of a key, and where they are.
- `World.reads_of_go`, `World.others_of_go`: the moves of a button's task, and those of others.
- `Keeps`, `Course.keeps`: the glances of a course are readings, and their events are heard in order.
- `Course.button_events_grounded`: what the aggregator hears of a button.
-/

namespace Peripheral

/-- What an input tells of a key. -/
def Input.pressed? (key : UInt16) : Input → Option Bool
  | .key k pressed => if k = key then some pressed else none
  | _ => none

end Peripheral

namespace Peripheral.Firmware

/-! ## Buttons in a course -/

/-- What a leg has put into the input channel, if it took nothing out. -/
def Leg.posted (leg : Leg) : List Input := leg.after.inputs.queued.drop leg.before.inputs.queued.length

/-- What the task of a button did in a leg, as far as it can be seen: it put an event into the input channel, or it
    logged what it decided. -/
def Leg.deed (leg : Leg) : ButtonDeed :=
  match leg.posted, leg.seen with
  | [.key _ pressed], _ => .send pressed
  | _, [.notice (.button _ pressed)] => .decide pressed
  | _, _ => .nothing

/-- The glance of a button's task at its pin in a leg. -/
def Leg.glance? (b : Button) (leg : Leg) : Option Glance :=
  if leg.move = .step (.button b) then some ⟨leg.before.clock, leg.before.low.get b, leg.deed⟩ else none

/-- The glances of a button's task in a course. -/
def glances (b : Button) (legs : List Leg) : List Glance := legs.filterMap (Leg.glance? b)

/-- What the task of a button has put into the input channel. -/
def postedBy (b : Button) (legs : List Leg) : List Input :=
  legs.flatMap fun leg => if leg.move = .step (.button b) then leg.posted else []

/-- What the aggregator has heard of a button's key. -/
def heardOf (b : Button) (legs : List Leg) : List Bool :=
  legs.filterMap fun leg => leg.handled?.bind (Input.pressed? b.key)

/-- What of a button's key waits for the aggregator. -/
def World.waitingOf (b : Button) (w : World) : List Bool := w.inputs.queued.filterMap (Input.pressed? b.key)

theorem glances_append_singleton (b : Button) (legs : List Leg) (leg : Leg) :
    glances b (legs ++ [leg]) = glances b legs ++ (leg.glance? b).toList := by
  rw [glances, List.filterMap_append]
  cases h : leg.glance? b <;> simp [h, glances]

theorem heardOf_append_singleton (b : Button) (legs : List Leg) (leg : Leg) :
    heardOf b (legs ++ [leg])
      = heardOf b legs ++ (leg.handled?.bind (Input.pressed? b.key)).toList := by
  rw [heardOf, List.filterMap_append]
  cases h : leg.handled?.bind (Input.pressed? b.key) <;> simp [h, heardOf]

theorem postedBy_append_singleton (b : Button) (legs : List Leg) (leg : Leg) :
    postedBy b (legs ++ [leg])
      = postedBy b legs ++ if leg.move = .step (.button b) then leg.posted else [] := by
  simp [postedBy]

/-! ## Moves of others -/

namespace World

variable {w v : World} {move : Move} {seen : List Entry} {b : Button}

/-- **What a move of another task, or from outside, leaves to a button**: its phase and its events. Time does not go
    back. -/
structure Besides (b : Button) (w v : World) : Prop where
  clock : w.clock ≤ v.clock
  phase : v.buttons.get b = w.buttons.get b
  waiting : v.waitingOf b = w.waitingOf b

theorem Besides.of_same (hclock : w.clock ≤ v.clock) (hbuttons : v.buttons = w.buttons)
    (hinputs : v.inputs = w.inputs) : Besides b w v where
  clock := hclock
  phase := by rw [hbuttons]
  waiting := by rw [waitingOf, waitingOf, hinputs]

/-- What is sent without being an event of the key. -/
theorem Besides.of_send {input : Input} {inputs : Channel Input} (hclock : w.clock ≤ v.clock)
    (hphase : v.buttons.get b = w.buttons.get b) (hsend : w.inputs.send? input = some inputs)
    (hinputs : v.inputs = inputs) (hother : input.pressed? b.key = none) : Besides b w v where
  clock := hclock
  phase := hphase
  waiting := by
    rw [waitingOf, waitingOf, hinputs, Channel.queued_send? hsend, List.filterMap_append,
      List.filterMap_cons_none hother, List.filterMap_nil, List.append_nil]

/-- Other tasks leave a button alone, those of other buttons among them. -/
theorem Does.besides {t : Task} (h : w.Does t v seen) (haggregator : t ≠ .aggregator) (hbutton : t ≠ .button b) :
    Besides b w v := by
  have hother : ∀ {c : Button}, Task.button c ≠ .button b → b ≠ c := fun hne hsame => hne (hsame ▸ rfl)
  cases h with
  | starts | handles => exact absurd rfl haggregator
  | runs | comes | takes | writes | fails | keeps | changes | watches => exact .of_same (Nat.le_refl _) rfl rfl
  | acknowledges _ hsend | announces _ hsend => exact .of_send (Nat.le_refl _) rfl hsend rfl rfl
  | reads | decides => exact ⟨Nat.le_refl _, PerButton.get_set_ne _ _ (hother hbutton), rfl⟩
  | @sends c _ _ _ _ hsend =>
    have hkey : c.key ≠ b.key := fun hsame => hother hbutton (Button.eq_of_key_eq hsame).symm
    exact .of_send (Nat.le_refl _) (PerButton.get_set_ne _ _ (hother hbutton)) hsend rfl (if_neg hkey)

/-- **Other tasks and the outside leave a button alone.** -/
theorem besides_of_go (h : w.go? move = some (v, seen)) (haggregator : move ≠ .step .aggregator)
    (hbutton : move ≠ .step (.button b)) : Besides b w v := by
  cases move with
  | outside o =>
    cases h
    obtain ⟨_, _, _, _, _, _, hclock, hoccur⟩ := w.occur_eq o
    rw [hoccur]
    exact .of_same hclock rfl rfl
  | step t => exact (does_of_go h).besides (fun ht => haggregator (ht ▸ rfl)) fun ht => hbutton (ht ▸ rfl)

/-- The aggregator hears the first event that waits, if it is one of the key. -/
theorem hears_of_go (h : w.go? (.step .aggregator) = some (v, seen)) :
    v.clock = w.clock ∧ v.buttons = w.buttons
      ∧ w.waitingOf b
        = ((Leg.mk w (.step .aggregator) v seen).handled?.bind (Input.pressed? b.key)).toList ++ v.waitingOf b := by
  obtain ⟨input, a, inputs, reports, power, fault, kept, hnext, rfl, hinputs, -, -⟩ :=
    (does_of_go h).aggregator_eq
  refine ⟨rfl, rfl, ?_⟩
  rw [Leg.handled?, if_pos rfl, hnext]
  exact filterMap_inputs rfl hnext hinputs

/-- **Every move but those of its task** leaves the phase of a button as it is, and takes no event of its key from the
    channel but the one that the aggregator hears. -/
theorem others_of_go (h : w.go? move = some (v, seen)) (hne : move ≠ .step (.button b)) :
    w.clock ≤ v.clock ∧ v.buttons.get b = w.buttons.get b
      ∧ w.waitingOf b = ((Leg.mk w move v seen).handled?.bind (Input.pressed? b.key)).toList ++ v.waitingOf b := by
  by_cases haggregator : move = .step .aggregator
  · subst haggregator
    obtain ⟨hclock, hbuttons, hwaiting⟩ := hears_of_go h
    exact ⟨Nat.le_of_eq hclock.symm, by rw [hbuttons], hwaiting⟩
  · have hbesides := besides_of_go h haggregator hne
    refine ⟨hbesides.clock, hbesides.phase, ?_⟩
    rw [Leg.handled?, if_neg haggregator, hbesides.waiting]
    rfl

/-- **The task of a button** steps as its reading does, and what it does can be seen. -/
theorem reads_of_go (h : w.go? (.step (.button b)) = some (v, seen)) :
    ∃ phase deed, (w.buttons.get b).Reads w.clock (w.low.get b) phase deed
      ∧ v = w.afterReading b phase deed.sent?.toList
      ∧ (Leg.mk w (.step (.button b)) v seen).posted = deed.sent?.toList.map (Input.key b.key)
      ∧ (Leg.mk w (.step (.button b)) v seen).deed = deed := by
  change w.step? (.button b) = some (v, seen) at h
  unfold step? at h
  split at h
  · cases h
  · dsimp only at h
    rw [stepButton?_eq] at h
    obtain ⟨⟨phase, deed⟩, hstep, heq⟩ := Option.map_eq_some_iff.mp h
    cases heq
    have hposted : (Leg.mk w (.step (.button b)) (w.afterReading b phase deed.sent?.toList)
        (deed.logged b.key)).posted = deed.sent?.toList.map (Input.key b.key) := List.drop_left
    refine ⟨phase, deed, ButtonPhase.reads_of_step? hstep, rfl, hposted, ?_⟩
    rw [Leg.deed, hposted]
    cases deed <;> rfl

end World

/-! ## Whole courses -/

variable {b : Button} {legs : List Leg} {w v : World} {move : Move} {seen : List Entry}

/-- **What a course has kept of a button**: the glances of its task are readings and lie in the past, their events were
    posted by the task, and they are the events that were heard and those that wait. -/
structure Keeps (b : Button) (legs : List Leg) (w : World) : Prop where
  readings : Readings (glances b legs) (w.buttons.get b)
  past : ∀ g ∈ glances b legs, g.clock ≤ w.clock
  posted : postedBy b legs = (events (glances b legs)).map (Input.key b.key)
  heard : events (glances b legs) = heardOf b legs ++ w.waitingOf b

/-- A step of the task is one more reading, and what it sends waits behind everything else. -/
theorem Keeps.reads (h : Keeps b legs w) (hgo : w.go? (.step (.button b)) = some (v, seen)) :
    Keeps b (legs ++ [⟨w, .step (.button b), v, seen⟩]) v := by
  obtain ⟨phase, deed, hreads, hafter, hposted, hdeed⟩ := World.reads_of_go hgo
  have hglances : glances b (legs ++ [⟨w, .step (.button b), v, seen⟩])
      = glances b legs ++ [⟨w.clock, w.low.get b, deed⟩] := by
    rw [glances_append_singleton, Leg.glance?, if_pos rfl, hdeed]
    rfl
  have hheard : heardOf b (legs ++ [⟨w, .step (.button b), v, seen⟩]) = heardOf b legs := by
    rw [heardOf_append_singleton, Leg.handled?, if_neg (by simp)]
    exact List.append_nil _
  have hwaiting : v.waitingOf b = w.waitingOf b ++ deed.sent?.toList := by
    rw [hafter, World.waitingOf, World.waitingOf, World.afterReading, List.filterMap_append]
    cases deed.sent? <;> simp [Input.pressed?]
  refine ⟨?_, ?_, ?_, ?_⟩
  · rw [hglances, hafter, World.afterReading, PerButton.get_set_self]
    exact h.readings.step h.past hreads
  · rw [hglances, hafter]
    exact List.forall_mem_append.mpr ⟨h.past, by simp [World.afterReading]⟩
  · rw [hglances, postedBy_append_singleton, if_pos rfl, hposted, h.posted, events_append_singleton,
      List.map_append]
  · rw [hglances, hheard, events_append_singleton, h.heard, hwaiting, List.append_assoc]

/-- No other move is a glance of the button, and only the aggregator's makes an event heard. -/
theorem Keeps.other (h : Keeps b legs w) (hgo : w.go? move = some (v, seen)) (hne : move ≠ .step (.button b)) :
    Keeps b (legs ++ [⟨w, move, v, seen⟩]) v := by
  have hglances : glances b (legs ++ [⟨w, move, v, seen⟩]) = glances b legs := by
    rw [glances_append_singleton, Leg.glance?, if_neg hne, Option.toList_none, List.append_nil]
  have hposted : postedBy b (legs ++ [⟨w, move, v, seen⟩]) = postedBy b legs := by
    rw [postedBy_append_singleton, if_neg hne, List.append_nil]
  obtain ⟨hclock, hphase, hwaiting⟩ := World.others_of_go hgo hne
  refine ⟨?_, ?_, ?_, ?_⟩
  · rw [hglances, hphase]
    exact h.readings
  · rw [hglances]
    exact fun g hg => Nat.le_trans (h.past g hg) hclock
  · rw [hposted, hglances]
    exact h.posted
  · rw [hglances, h.heard, heardOf_append_singleton, hwaiting, List.append_assoc]

theorem Course.keeps (h : Course legs w) (b : Button) : Keeps b legs w := by
  induction h with
  | powerOn => exact ⟨by cases b <;> exact .start, List.forall_mem_nil _, rfl, rfl⟩
  | @leg legs w v move seen h hgo ih =>
    by_cases hbutton : move = .step (.button b)
    · subst hbutton
      exact ih.reads hgo
    · exact ih.other hgo hbutton

/-- **The aggregator hears well-formed button events.** Whatever levels the pins have had, however the tasks took
    turns and however long events had to wait for room:
    - the task of a button has posted events of its key only, one for each glance that sends one, and in the same
      order the aggregator has heard some of them, while the others wait;
    - nobody else posts events of that key, so what was heard is press, release, press, and so on in turns;
    - each press follows glances that saw a high level, then a low one, and again a low one when it was decided, at
      least 20 ms after the first; each release follows one that saw a high level, at least 20 ms before it was
      decided; all of these came after the event before; and any two events were sent at least 20 ms apart. -/
theorem Course.button_events_grounded (h : Course legs w) (b : Button) :
    postedBy b legs = (heardOf b legs ++ w.waitingOf b).map (Input.key b.key)
      ∧ events (glances b legs) = heardOf b legs ++ w.waitingOf b
      ∧ Alternate (heardOf b legs)
      ∧ ∀ past g later, glances b legs = past ++ g :: later → Grounded past g := by
  have hkeeps := h.keeps b
  refine ⟨by rw [hkeeps.posted, hkeeps.heard], hkeeps.heard, ?_, ?_⟩
  · have halternate := hkeeps.readings.alternate.1
    rw [hkeeps.heard] at halternate
    exact halternate.left
  · intro past g later hsplit
    have hreadings := hkeeps.readings
    rw [hsplit] at hreadings
    exact hreadings.grounded

/-- A button goes down and up. The press was heard, and the release waits: it was sent at 40 ms, and the press at 20,
    when the pin had been low for 20 ms. -/
theorem button_events_grounded_press_release :
    ∃ legs w past g, Course legs w ∧ glances .third legs = past ++ [g] ∧ g = ⟨40, false, .send false⟩
      ∧ heardOf .third legs = [true] ∧ postedBy .third legs = [.key 4 true, .key 4 false]
      ∧ ReleaseFounded past ∧ ∀ e ∈ past, e.deed.sent? ≠ none → e.clock + 20 ≤ 40 := by
  obtain ⟨legs, leg, w, h, -, hleg⟩ := exists_course
    [.step (.button .third), .outside (.level 24 true), .step (.button .third), .outside (.elapse 20),
      .step (.button .third), .step (.button .third), .outside (.level 24 false), .step (.button .third),
      .outside (.elapse 20), .step (.button .third), .step .aggregator, .step .aggregator, .step (.button .third)]
    (fun legs leg => decide (glances .third (legs ++ [leg])
        = [⟨0, false, .nothing⟩, ⟨0, true, .nothing⟩, ⟨20, true, .decide true⟩, ⟨20, true, .send true⟩,
          ⟨20, false, .nothing⟩, ⟨40, false, .decide false⟩] ++ [⟨40, false, .send false⟩]
      ∧ heardOf .third (legs ++ [leg]) = [true] ∧ leg.after.waitingOf .third = [false])) (by decide +kernel)
  rw [h.after_eq] at hleg
  obtain ⟨hglances, hheard, hwaiting⟩ := of_decide_eq_true hleg
  obtain ⟨hposted, -, -, hgrounded⟩ := h.button_events_grounded .third
  have hlast := hgrounded _ _ _ hglances
  refine ⟨_, w, _, _, h, hglances, rfl, hheard, ?_, (hlast.release rfl).2, hlast.apart (by decide)⟩
  rw [hposted, hheard, hwaiting]
  rfl

end Peripheral.Firmware
