import Peripheral.Firmware.Rest
import Peripheral.Proofs.ButtonEvents

/-!
# `Peripheral.Proofs.SettledButton` — when a button at rest is reported as it is

The level of a pin is read twice on the way to a press, and only once on the way to a release. A press that does
not settle is taken back before anyone hears of it; a release is sent after the debounce time whatever the level is
by then. If the button is down again at that moment, its task waits for a high level before it looks for the next
press, and the button that is held counts as released until it is let go.

Polls of one button are looked at here by themselves, with any levels, at any times, and with room for an event or
not. `World.Tended.reading` says that this is what becomes of the button's task in the firmware.

## Contents
- `Look`, `ButtonPhase.poll`: one poll of a button's task, with all it depends on.
- `poll_eq_resting_iff`: how a poll leaves a button waiting for a high level.
- `World.poll_button`: the task of a button is polled as its reading is.
- `Reading`, `World.Tended.reading`: polls one after the other, and where they come from.
- `KeptDown`, `phase_eq_resting_iff`: buttons that are down though a release was sent.
- `Reading.told_eq_low_iff`: when the last event fits the level.
-/

namespace Peripheral.Firmware

/-! ## One poll -/

/-- What the task of a button finds when it is polled: the time, the level of its pin, and room for an event or
    not. -/
structure Look where
  clock : Nat
  low : Bool
  room : Bool
  deriving DecidableEq, Repr

/-- The events that were sent with some deeds. -/
def sentWith (deeds : List ButtonDeed) : List Bool := deeds.filterMap ButtonDeed.sent?

namespace ButtonPhase

/-- A step in a poll. -/
def stepAt? (l : Look) (phase : ButtonPhase) : Option (ButtonPhase × List ButtonDeed) :=
  (phase.step? l.clock l.low l.room).map fun r => (r.1, [r.2])

/-- Steps until the reading has to wait. -/
def poll (l : Look) (phase : ButtonPhase) : ButtonPhase × List ButtonDeed :=
  Stepping.exhaust (stepAt? l) (phase.load l.clock) phase

variable {l : Look} {phase next : ButtonPhase} {deeds : List ButtonDeed}

theorem step?_of_stepAt? (h : phase.stepAt? l = some (next, deeds)) :
    ∃ deed, phase.step? l.clock l.low l.room = some (next, deed) ∧ deeds = [deed] := by
  obtain ⟨⟨next, deed⟩, hstep, heq⟩ := Option.map_eq_some_iff.mp h
  cases heq
  exact ⟨deed, hstep, rfl⟩

theorem load_stepAt? (h : phase.stepAt? l = some (next, deeds)) : next.load l.clock < phase.load l.clock := by
  obtain ⟨deed, hstep, -⟩ := step?_of_stepAt? h
  have := load_step? hstep
  omega

/-- Steps are never what a poll is short of. -/
theorem exhaust_stepAt? {bound : Nat} (h : phase.load l.clock ≤ bound) :
    Stepping.exhaust (stepAt? l) bound phase = phase.poll l :=
  Stepping.exhaustFrom_eq_of_le (fun _ _ _ h => load_stepAt? h) [] phase h (Nat.le_refl _)

/-- A button that was polled has to wait. -/
theorem step?_poll (l : Look) (phase : ButtonPhase) : (phase.poll l).1.step? l.clock l.low l.room = none :=
  Option.map_eq_none_iff.mp (Stepping.exhaust_waits (fun _ _ _ h => load_stepAt? h) phase)

/-- What was reported after a poll is what was reported before it, or what was sent last in it. -/
theorem reported_poll (l : Look) (phase : ButtonPhase) (news : List Bool) (hlatest : latest news = phase.reported) :
    latest (news ++ sentWith (phase.poll l).2) = (phase.poll l).1.reported := by
  refine Stepping.exhaust_said_invariant
    (P := fun deeds now => latest (news ++ sentWith deeds) = reported now) ?_ _ ?_
  · intro deeds now next more hgo h
    obtain ⟨deed, hstep, rfl⟩ := step?_of_stepAt? hgo
    rw [sentWith, List.filterMap_append, ← List.append_assoc, (reads_of_step? hstep).reported_eq, ← h]
    exact latest_append_toList _ deed.sent?
  · rw [sentWith, List.filterMap_nil, List.append_nil]
    exact hlatest

/-- While the level is low, a button comes to wait for a high level by a release, and goes on waiting. -/
theorem resting_iff_of_low (hlow : l.low = true) (phase : ButtonPhase) :
    (phase.poll l).1 = resting ↔ phase = resting ∨ false ∈ sentWith (phase.poll l).2 := by
  refine Stepping.exhaust_said_invariant
    (P := fun deeds now => now = resting ↔ phase = resting ∨ false ∈ sentWith deeds) ?_ _ (by simp [sentWith])
  intro deeds now next more hgo h
  obtain ⟨deed, hstep, rfl⟩ := step?_of_stepAt? hgo
  have hreads := reads_of_step? hstep
  rw [hlow] at hreads
  generalize l.clock = clock at hreads
  cases hreads with
  | rise hhigh | reject hdue hhigh | leave hhigh => cases hhigh
  | fall | confirm | press | settle | release => simp_all [sentWith, ButtonDeed.sent?]

/-- **How a poll leaves a button waiting for a high level**: the level is low, and a release was sent, or the button has
    waited before. -/
theorem poll_eq_resting_iff (l : Look) (phase : ButtonPhase) :
    (phase.poll l).1 = resting
      ↔ l.low = true ∧ (phase = resting ∨ false ∈ sentWith (phase.poll l).2) := by
  constructor
  · intro hresting
    have hwaits := step?_poll l phase
    rw [hresting, step?] at hwaits
    have hlow : l.low = true := by
      by_contra hhigh
      rw [if_neg hhigh] at hwaits
      cases hwaits
    exact ⟨hlow, (resting_iff_of_low hlow phase).mp hresting⟩
  · rintro ⟨hlow, hcause⟩
    exact (resting_iff_of_low hlow phase).mpr hcause

end ButtonPhase

/-! ## The task of a button -/

/-- Only the phases that wait for room look for it, and those are worth more than what comes behind an event. -/
theorem ButtonPhase.step?_room {clock : Nat} {low : Bool} {phase : ButtonPhase} (h : phase.load clock ≤ 2)
    (room room' : Bool) : phase.step? clock low room = phase.step? clock low room' := by
  cases phase with
  | pressed | released => simp [load] at h
  | _ => rfl

/-- An event is worth more than all that its task can do behind it in the same poll. -/
theorem ButtonPhase.Reads.load_le_of_sent {clock : Nat} {low : Bool} {phase next : ButtonPhase} {deed : ButtonDeed}
    (h : phase.Reads clock low next deed) (hsent : deed.sent? ≠ none) : next.load clock ≤ 2 := by
  cases h with
  | press | release => simp [ButtonPhase.load]
  | _ => exact absurd rfl hsent

namespace World

variable {w v : World} {b : Button} {said : List Entry} {phase next : ButtonPhase} {deeds more : List ButtonDeed}

/-- What the task of a button finds if it is polled now. -/
def lookOf (w : World) (b : Button) : Look := ⟨w.clock, w.low.get b, w.inputs.hasRoom⟩

theorem afterReading_afterReading (w : World) (b : Button) (phase next : ButtonPhase) (sent later : List Bool) :
    (w.afterReading b phase sent).afterReading b next later = w.afterReading b next (sent ++ later) := by
  cases b <;> simp [afterReading, PerButton.set]

theorem afterReading_self (w : World) (b : Button) : w.afterReading b (w.buttons.get b) [] = w := by
  cases b <;> simp [afterReading, PerButton.set, PerButton.get]

/-- **In a poll of a button's task** the world has come to `v`, and the reading of the button to `phase`. Once an event
    was sent, the room that is left does not matter any more. -/
structure Polling (w : World) (b : Button) (v : World) (said : List Entry) (phase : ButtonPhase)
    (deeds : List ButtonDeed) : Prop where
  world : v = w.afterReading b phase (sentWith deeds)
  said : said = deeds.flatMap (ButtonDeed.logged b.key)
  spent : sentWith deeds = [] ∨ phase.load w.clock ≤ 2

/-- The task goes on as the reading does. -/
theorem Polling.step?_eq (h : Polling w b v said phase deeds) (hfault : w.fault = none) :
    v.step? (.button b) = (phase.stepAt? (w.lookOf b)).map fun r =>
      (v.afterReading b r.1 (sentWith r.2), r.2.flatMap (ButtonDeed.logged b.key)) := by
  have hroom : phase.step? w.clock (w.low.get b) v.inputs.hasRoom
      = phase.step? w.clock (w.low.get b) w.inputs.hasRoom := by
    rcases h.spent with hnone | hspent
    · rw [h.world, hnone, afterReading, List.map_nil, List.append_nil]
    · exact ButtonPhase.step?_room hspent _ _
  have hbutton : v.step? (.button b) = v.stepButton? b := by
    rw [World.step?, h.world, afterReading, hfault]
    rfl
  have hphase : v.buttons.get b = phase := by rw [h.world, afterReading, PerButton.get_set_self]
  have hclock : v.clock = w.clock := by rw [h.world]; rfl
  have hlow : v.low = w.low := by rw [h.world]; rfl
  rw [hbutton, stepButton?_eq, hphase, hclock, hlow, hroom, ButtonPhase.stepAt?, Option.map_map, lookOf]
  congr 1
  funext r
  obtain ⟨next, deed⟩ := r
  cases deed <;> rfl

theorem Polling.goOn (h : Polling w b v said phase deeds)
    (hstep : phase.stepAt? (w.lookOf b) = some (next, more)) :
    Polling w b (v.afterReading b next (sentWith more)) (said ++ more.flatMap (ButtonDeed.logged b.key)) next
      (deeds ++ more) := by
  have hfall : next.load w.clock < phase.load w.clock := ButtonPhase.load_stepAt? hstep
  obtain ⟨deed, hdeed, rfl⟩ := ButtonPhase.step?_of_stepAt? hstep
  refine ⟨?_, ?_, ?_⟩
  · rw [h.world, afterReading_afterReading, sentWith, sentWith, sentWith, List.filterMap_append]
  · rw [h.said, List.flatMap_append]
  · cases hsent : deed.sent? with
    | none =>
      rcases h.spent with hnone | hspent
      · exact .inl (by simpa [sentWith, hsent] using hnone)
      · exact .inr (by omega)
    | some pressed =>
      exact .inr ((ButtonPhase.reads_of_step? hdeed).load_le_of_sent (by rw [hsent]; simp))

theorem load_button_le (w : World) (b : Button) : (w.buttons.get b).load w.clock ≤ w.load := by
  rw [load_eq, buttonsLoad]
  cases b <;> simp only [PerButton.get] <;> omega

/-- The task waits when the reading does, and else they go on together. -/
theorem Polling.together (h : Polling w b v said phase deeds) (hfault : w.fault = none) :
    v.step? (.button b) = none ∧ phase.stepAt? (w.lookOf b) = none
      ∨ ∃ v' out next more, v.step? (.button b) = some (v', out)
        ∧ phase.stepAt? (w.lookOf b) = some (next, more) ∧ Polling w b v' (said ++ out) next (deeds ++ more) := by
  rw [h.step?_eq hfault]
  cases hstep : phase.stepAt? (w.lookOf b) with
  | none => exact .inl ⟨rfl, rfl⟩
  | some r => exact .inr ⟨_, _, r.1, r.2, rfl, rfl, h.goOn hstep⟩

/-- **The task of a button is polled as its reading is**, with what it finds at the beginning of the poll. -/
theorem poll_button (w : World) (b : Button) (hfault : w.fault = none) :
    w.poll (.button b)
      = (w.afterReading b ((w.buttons.get b).poll (w.lookOf b)).1 (sentWith ((w.buttons.get b).poll (w.lookOf b)).2),
        ((w.buttons.get b).poll (w.lookOf b)).2.flatMap (ButtonDeed.logged b.key)) := by
  have hstart : Polling w b w [] (w.buttons.get b) [] := ⟨(afterReading_self w b).symm, rfl, .inl rfl⟩
  have hend := Stepping.exhaust_related (fun _ _ _ _ h => Polling.together h hfault) w.load hstart
  rw [ButtonPhase.exhaust_stepAt? (w.load_button_le b)] at hend
  exact Prod.ext hend.world hend.said

end World

/-! ## Polls one after the other -/

/-- A poll that has taken place: what the task found, and the events that it sent. -/
structure Poll where
  look : Look
  sent : List Bool
  deriving DecidableEq, Repr

/-- **The reading of a button**, with all polls that led to it. -/
structure Reading where
  phase : ButtonPhase
  polls : List Poll
  deriving DecidableEq, Repr

namespace Reading

/-- Before the first poll. -/
def new : Reading := ⟨.resting, []⟩

/-- One more poll. -/
def poll (r : Reading) (l : Look) : Reading :=
  ⟨(r.phase.poll l).1, r.polls ++ [⟨l, sentWith (r.phase.poll l).2⟩]⟩

/-- A button whose task was polled with these looks. -/
def after (looks : List Look) : Reading := looks.foldl poll new

/-- The event that was sent last is a press. -/
def told (r : Reading) : Bool := latest (r.polls.flatMap Poll.sent)

/-- The last poll found the level to be low. -/
def low (r : Reading) : Bool := (r.polls.getLast?.map fun p => p.look.low).getD false

theorem after_append_singleton (looks : List Look) (l : Look) : after (looks ++ [l]) = (after looks).poll l :=
  List.foldl_concat poll new l looks

/-- A task that was polled has to wait with the level that it found. -/
theorem waits_at_look (first : Look) (looks : List Look) :
    ∃ l : Look, (after (first :: looks)).low = l.low
      ∧ (after (first :: looks)).phase.step? l.clock l.low l.room = none := by
  rcases List.eq_nil_or_concat (first :: looks) with hnil | ⟨init, l, hlooks⟩
  · cases hnil
  · rw [List.concat_eq_append] at hlooks
    rw [hlooks, after_append_singleton]
    exact ⟨l, by simp [poll, low], ButtonPhase.step?_poll l _⟩

/-- The phase knows what was sent last. -/
theorem told_after (looks : List Look) : (after looks).told = (after looks).phase.reported := by
  induction looks using List.reverseRecOn with
  | nil => rfl
  | append_singleton looks l ih =>
    rw [after_append_singleton, poll, told, List.flatMap_append, List.flatMap_singleton]
    exact ButtonPhase.reported_poll l _ _ ih

end Reading

/-- **Runs in which the task of a button takes whole turns.** In between the other tasks take steps, and anything can
    happen from outside. `looks` is what the task found at its turns, and `posted` what it put into the input
    channel. -/
inductive World.Tended (b : Button) : World → List Look → List Input → Prop
  | powerOn : Tended b World.initial [] []
  | besides {w v : World} {looks : List Look} {posted : List Input} {move : Move} {seen : List Entry}
      (h : Tended b w looks posted) (hgo : w.go? move = some (v, seen)) (hother : move ≠ .step (.button b)) :
      Tended b v looks posted
  | turn {w : World} {looks : List Look} {posted : List Input} (h : Tended b w looks posted)
      (hfault : w.fault = none) :
      Tended b (w.poll (.button b)).1 (looks ++ [w.lookOf b])
        (posted ++ (w.poll (.button b)).1.inputs.queued.drop w.inputs.queued.length)

/-- **What a button's task has come to depends on its own looks only**, and so do the events that it has sent. -/
theorem World.Tended.reading {b : Button} {w : World} {looks : List Look} {posted : List Input}
    (h : w.Tended b looks posted) :
    w.buttons.get b = (Reading.after looks).phase
      ∧ posted = ((Reading.after looks).polls.flatMap Poll.sent).map (.key b.key) := by
  induction h with
  | powerOn => exact ⟨by cases b <;> rfl, rfl⟩
  | besides h hgo hother ih =>
    rw [(World.others_of_go hgo hother).2.1]
    exact ih
  | @turn w looks posted h hfault ih =>
    obtain ⟨hphase, hposted⟩ := ih
    rw [World.poll_button w b hfault, Reading.after_append_singleton, Reading.poll, hphase]
    refine ⟨PerButton.get_set_self _ _ _, ?_⟩
    rw [World.afterReading, List.drop_left, hposted, List.flatMap_append, List.flatMap_singleton, List.map_append]

/-! ## Buttons that are kept down -/

/-- The polls since the level was last found to be high. -/
def sinceHigh (polls : List Poll) : List Poll := polls.rtakeWhile fun p => p.look.low

/-- **Kept down through a release.** A poll that found the level low has sent a release, and no poll since then found
    the level high. -/
def KeptDown (polls : List Poll) : Prop := ∃ p ∈ sinceHigh polls, false ∈ p.sent

instance (polls : List Poll) : Decidable (KeptDown polls) :=
  inferInstanceAs (Decidable (∃ p ∈ sinceHigh polls, false ∈ p.sent))

/-- A release that a low level follows at once begins it, and a high level ends it. -/
theorem keptDown_append_singleton {polls : List Poll} {p : Poll} :
    KeptDown (polls ++ [p]) ↔ p.look.low = true ∧ (KeptDown polls ∨ false ∈ p.sent) := by
  rw [KeptDown, sinceHigh, List.rtakeWhile_concat]
  split
  · next hlow => simp [KeptDown, sinceHigh, hlow, or_and_right, exists_or]
  · next hhigh => simp [hhigh]

namespace Reading

/-- **Why a button waits for a high level**: no poll has found one yet, or it is kept down. -/
theorem phase_eq_resting_iff (looks : List Look) :
    (after looks).phase = .resting ↔ KeptDown (after looks).polls ∨ ∀ l ∈ looks, l.low = true := by
  induction looks using List.reverseRecOn with
  | nil => simp [after, new]
  | append_singleton looks l ih =>
    rw [after_append_singleton, poll, ButtonPhase.poll_eq_resting_iff, keptDown_append_singleton, ih,
      List.forall_mem_append, List.forall_mem_singleton]
    tauto

end Reading

/-- The reading looks at the level next, and waits for no debounce time and no room. -/
def ButtonPhase.awaitsLevel : ButtonPhase → Bool
  | resting | armed | held => true
  | pressing _ | pressed | releasing _ | released => false

/-- **Which level a waiting button has found**: the one that it is not waiting for. -/
theorem ButtonPhase.low_of_awaitsLevel {l : Look} {phase : ButtonPhase} (hwaits : phase.awaitsLevel = true)
    (hstuck : phase.step? l.clock l.low l.room = none) :
    l.low = true ↔ phase = resting ∨ phase.reported = true := by
  cases phase <;> simp_all [awaitsLevel, step?, reported]

/-- **A settled button is reported as it is, unless it is kept down through a release.** However the level and the time
    went and however long an event had to wait for room: if the level was high at first and the task of the button
    waits for a level now, then the event that it sent last fits the level, if and only if the button is not kept
    down. A button that is kept down is reported as released; none that is up is ever reported as pressed. -/
theorem Reading.told_eq_low_iff (first : Look) (looks : List Look) (hhigh : first.low = false)
    (hwaits : (Reading.after (first :: looks)).phase.awaitsLevel = true) :
    ((Reading.after (first :: looks)).told = (Reading.after (first :: looks)).low
        ↔ ¬ KeptDown (Reading.after (first :: looks)).polls)
      ∧ ((Reading.after (first :: looks)).told = true → (Reading.after (first :: looks)).low = true) := by
  have htold := Reading.told_after (first :: looks)
  have hkept : (Reading.after (first :: looks)).phase = .resting
      ↔ KeptDown (Reading.after (first :: looks)).polls := by
    simpa [hhigh] using Reading.phase_eq_resting_iff (first :: looks)
  obtain ⟨l, hlow, hstuck⟩ := Reading.waits_at_look first looks
  have hlevel := ButtonPhase.low_of_awaitsLevel hwaits hstuck
  rw [hlow, ← hkept, htold]
  refine ⟨?_, fun hpressed => hlevel.mpr (.inr hpressed)⟩
  by_cases hresting : (Reading.after (first :: looks)).phase = .resting
  · simp [hresting, ButtonPhase.reported, hlevel.mpr (.inl hresting)]
  · simp only [hresting, false_or, not_false_eq_true, iff_true] at hlevel ⊢
    exact Bool.eq_iff_iff.mpr hlevel.symm

/-- The level bounces, and the press that it seemed to be is taken back; then it stays low, and the press has to wait
    for room. In the end it is sent, and the button is down. -/
theorem told_eq_low_bounce :
    ∃ r, r = Reading.after [⟨0, false, true⟩, ⟨1, true, true⟩, ⟨10, false, true⟩, ⟨21, false, true⟩, ⟨22, true, true⟩,
        ⟨42, true, false⟩, ⟨50, true, true⟩]
      ∧ r.phase.awaitsLevel = true ∧ r.polls.flatMap Poll.sent = [true] ∧ ¬ KeptDown r.polls ∧ r.told = r.low := by
  refine ⟨_, rfl, by decide +kernel, by decide +kernel, by decide +kernel, ?_⟩
  exact (Reading.told_eq_low_iff _ _ rfl (by decide +kernel)).1.mpr (by decide +kernel)

/-- A button is let go for a moment and is down again before the release is sent. Its task waits for a high level then,
    and the button that is held is reported as released. -/
theorem told_ne_low_quick_press :
    ∃ r, r = Reading.after [⟨0, false, true⟩, ⟨1, true, true⟩, ⟨21, true, true⟩, ⟨30, false, true⟩, ⟨40, true, true⟩,
        ⟨50, true, true⟩]
      ∧ r.phase.awaitsLevel = true ∧ r.polls.flatMap Poll.sent = [true, false] ∧ r.told = false ∧ r.low = true :=
  ⟨_, rfl, by decide +kernel⟩

end Peripheral.Firmware
