import Peripheral.Firmware.Outcomes
import Peripheral.Firmware.Schedule
import Peripheral.Proofs.Moves

/-!
# `Peripheral.Proofs.Course` — what a device has been through

Tasks take their steps in any order, and between the steps anything can happen from outside. A course is
one such order, one leg for each step or occurrence. Reports move through it in a line: from the report
channel into the hands of the writer, and from there as acknowledgements through the input channel. Only the
aggregator makes the line longer, at its end, or shorter, at its head.

## Contents
- `Move`, `World.go?`, `Leg`, `Course`: the courses that a device can take.
- `World.record`, `exists_course`: courses that are computed.
- `Reaches`, `reaches_react`: what the schedule does is a course.
- `World.passAll_eq`: what passing outputs on leaves alone.
- `World.line`, `line_of_go`: the reports on the way, oldest first.
-/

namespace Peripheral.Firmware

/-- A task takes a step, or something happens from outside. -/
inductive Move
  | step (t : Task)
  | outside (o : Occurrence)
  deriving DecidableEq, Repr

/-- The world after a move, and what is seen of it. A task that has to wait cannot move. -/
def World.go? (w : World) : Move → Option (World × List Entry)
  | .step t => w.step? t
  | .outside o => some (w.occur o, [])

theorem World.does_of_go {w v : World} {t : Task} {seen : List Entry} (h : w.go? (.step t) = some (v, seen)) :
    w.Does t v seen :=
  does_of_step? h

/-- A move, with the worlds around it and what was seen. -/
structure Leg where
  before : World
  move : Move
  after : World
  seen : List Entry

/-- **Courses.** Power came on, the moves of `legs` were made one after the other, and the world is `w` now. -/
inductive Course : List Leg → World → Prop
  | powerOn : Course [] World.initial
  | leg {legs : List Leg} {w v : World} {move : Move} {seen : List Entry} (h : Course legs w)
      (hgo : w.go? move = some (v, seen)) : Course (legs ++ [⟨w, move, v, seen⟩]) v

/-- **Each leg of a course is a move in the world that the legs before it led to.** -/
theorem Course.leg_of_append {pre post : List Leg} {leg : Leg} {w : World}
    (h : Course (pre ++ leg :: post) w) :
    Course pre leg.before ∧ leg.before.go? leg.move = some (leg.after, leg.seen) := by
  generalize hlegs : pre ++ leg :: post = legs at h
  induction h generalizing post with
  | powerOn => simp at hlegs
  | leg h hgo ih =>
    rcases split_append_singleton hlegs.symm with ⟨rfl, rfl⟩ | ⟨init, hinit⟩
    · exact ⟨h, hgo⟩
    · exact ih hinit.symm

/-- A course ends in the world that its last leg led to. -/
theorem Course.after_eq {legs : List Leg} {leg : Leg} {w : World} (h : Course (legs ++ [leg]) w) :
    leg.after = w := by
  generalize hlegs : legs ++ [leg] = all at h
  cases h with
  | powerOn => simp at hlegs
  | leg h hgo =>
    obtain ⟨-, hlast⟩ := List.append_inj' hlegs rfl
    cases hlast
    rfl

/-! ## Courses that are computed -/

/-- Make moves one after the other and keep every leg. -/
def World.record (w : World) : List Move → Option (List Leg × World)
  | [] => some ([], w)
  | move :: rest =>
    match w.go? move with
    | none => none
    | some (v, seen) => (v.record rest).map fun r => (⟨w, move, v, seen⟩ :: r.1, r.2)

/-- A record that goes on where a course ends makes the course longer. -/
theorem Course.append_record {legs more : List Leg} {w v : World} {moves : List Move}
    (h : Course legs w) (hrec : w.record moves = some (more, v)) :
    Course (legs ++ more) v ∧ more.map Leg.move = moves := by
  induction moves generalizing legs more w with
  | nil =>
    cases hrec
    exact ⟨by rwa [List.append_nil], rfl⟩
  | cons move rest ih =>
    unfold World.record at hrec
    split at hrec
    · cases hrec
    · rename_i u seen hgo
      obtain ⟨⟨more', v'⟩, hrest, heq⟩ := Option.map_eq_some_iff.mp hrec
      cases heq
      obtain ⟨hmore, hmoves⟩ := ih (h.leg hgo) hrest
      exact ⟨by rwa [List.append_assoc] at hmore, by rw [List.map_cons, hmoves]⟩

/-- What is computed of the last leg of a record holds of the last leg of a course. -/
theorem exists_course (moves : List Move) (p : List Leg → Leg → Bool)
    (h : (World.initial.record moves).any (fun r => r.1.getLast?.any (p r.1.dropLast)) = true) :
    ∃ legs leg w, Course (legs ++ [leg]) w ∧ (legs ++ [leg]).map Leg.move = moves
      ∧ p legs leg = true := by
  cases hrec : World.initial.record moves with
  | none => rw [hrec] at h; cases h
  | some r =>
    obtain ⟨legs, w⟩ := r
    rw [hrec] at h
    change legs.getLast?.any (p legs.dropLast) = true at h
    obtain ⟨hcourse, hmoves⟩ := Course.powerOn.append_record hrec
    rcases List.eq_nil_or_concat legs with rfl | ⟨init, leg, rfl⟩
    · cases h
    · rw [List.concat_eq_append] at h hcourse hmoves
      rw [List.getLast?_concat, List.dropLast_concat] at h
      exact ⟨init, leg, w, hcourse, hmoves, h⟩

/-! ## What the schedule does -/

/-- Every course to `w` can go on to `v`, with nothing seen on the way but this. -/
def Reaches (w v : World) (seen : List Entry) : Prop :=
  ∀ legs, Course legs w → ∃ more, Course (legs ++ more) v ∧ more.flatMap Leg.seen = seen

theorem Reaches.refl (w : World) : Reaches w w [] := by
  intro legs h
  exact ⟨[], by rwa [List.append_nil], rfl⟩

theorem Reaches.trans {u v w : World} {seen later : List Entry} (huv : Reaches u v seen)
    (hvw : Reaches v w later) : Reaches u w (seen ++ later) := by
  intro legs h
  obtain ⟨more, hv, hseen⟩ := huv legs h
  obtain ⟨rest, hw, hlater⟩ := hvw _ hv
  refine ⟨more ++ rest, by rwa [← List.append_assoc], ?_⟩
  rw [List.flatMap_append, hseen, hlater]

theorem reaches_of_go {w v : World} (move : Move) {seen : List Entry} (h : w.go? move = some (v, seen)) :
    Reaches w v seen := by
  intro legs hcourse
  exact ⟨[⟨w, move, v, seen⟩], hcourse.leg h, List.append_nil _⟩

/-- A machine whose steps are courses runs a course. -/
theorem reaches_exhaust {step : World → Option (World × List Entry)}
    (hstep : ∀ w v seen, step w = some (v, seen) → Reaches w v seen) (bound : Nat) (w : World) :
    Reaches w (Stepping.exhaust step bound w).1 (Stepping.exhaust step bound w).2 :=
  Stepping.exhaust_said_invariant (P := fun seen v => Reaches w v seen)
    (fun _ v u later hgo hreach => hreach.trans (hstep v u later hgo)) bound (.refl w)

theorem reaches_poll (t : Task) (w : World) : Reaches w (w.poll t).1 (w.poll t).2 :=
  reaches_exhaust (fun _ _ _ h => reaches_of_go (.step t) h) w.load w

theorem reaches_pollAll (ts : List Task) (w : World) :
    Reaches w (World.pollAll ts w).1 (World.pollAll ts w).2 := by
  induction ts generalizing w with
  | nil => exact .refl w
  | cons t rest ih => exact (reaches_poll t w).trans (ih (w.poll t).1)

/-- Rounds until every task has to wait are a course. -/
theorem reaches_settle (w : World) : Reaches w w.settle.1 w.settle.2 := by
  apply reaches_exhaust
  intro w v seen h
  unfold World.round? at h
  split at h
  · cases h
  · have hall := reaches_pollAll Task.all w
    rw [Option.some.inj h] at hall
    exact hall

/-- **What the device does after occurrences is a course.** -/
theorem reaches_react (w : World) (os : List Occurrence) : Reaches w (w.react os).1 (w.react os).2 := by
  have hoccur : Reaches w (w.occurAll os) [] := by
    induction os generalizing w with
    | nil => exact .refl w
    | cons o rest ih =>
      exact (reaches_of_go (w := w) (.outside o) rfl).trans (ih (w.occur o))
  exact hoccur.trans (reaches_settle _)

/-- Power comes on, and the device settles. -/
theorem exists_course_boot (held : List Nat) :
    ∃ legs, Course legs (World.boot held).1
      ∧ World.bootEntries ++ legs.flatMap Leg.seen = (World.boot held).2 := by
  obtain ⟨legs, h, hseen⟩ := reaches_react World.initial (held.map fun pin => .level pin true) []
    .powerOn
  exact ⟨legs, h, by rw [hseen]; rfl⟩

/-! ## What the aggregator's task hands on -/

namespace World

/-- **Passing outputs on** adds reports to the end of their channel and signals activity, and does nothing
    else. All that is seen of it are reports for which there was no room. -/
theorem passAll_eq (w : World) (out : List Output) :
    ∃ reports power kept, (w.passAll out).1 = { w with reports := reports, power := power }
      ∧ reports.queued = w.reports.queued ++ kept
      ∧ ∀ e ∈ (w.passAll out).2, ∃ t, e = .notice (.reportDropped t) := by
  induction out generalizing w with
  | nil => exact ⟨w.reports, w.power, [], rfl, (List.append_nil _).symm, List.forall_mem_nil _⟩
  | cons o rest ih =>
    have hfirst : ∃ reports power kept, (w.pass o).1 = { w with reports := reports, power := power }
        ∧ reports.queued = w.reports.queued ++ kept
        ∧ ∀ e ∈ (w.pass o).2, ∃ t, e = .notice (.reportDropped t) := by
      cases o with
      | activity =>
        exact ⟨w.reports, _, [], rfl, (List.append_nil _).symm, List.forall_mem_nil _⟩
      | report r =>
        unfold pass
        dsimp only
        split
        · rename_i reports hsend
          exact ⟨reports, w.power, [r], rfl, Channel.queued_send? hsend, List.forall_mem_nil _⟩
        · exact ⟨w.reports, w.power, [], rfl, (List.append_nil _).symm, by simp⟩
    obtain ⟨reports, power, kept, hpass, hqueued, hseen⟩ := hfirst
    obtain ⟨reports', power', kept', hpass', hqueued', hseen'⟩ := ih (w.pass o).1
    refine ⟨reports', power', kept ++ kept', ?_, ?_, ?_⟩
    · show ((w.pass o).1.passAll rest).1 = _
      rw [hpass', hpass]
    · rw [hqueued', hpass, ← List.append_assoc, ← hqueued]
    · intro e he
      rcases List.mem_append.mp he with he | he
      · exact hseen e he
      · exact hseen' e he

/-- The input that the aggregator's task handles next. -/
def nextInput? (w : World) : Option Input :=
  if w.aggregator.started then w.inputs.queued.head? else some .ready

end World

/-- The input that the aggregator handles in a leg. -/
def Leg.handled? (leg : Leg) : Option Input :=
  if leg.move = .step .aggregator then leg.before.nextInput? else none

/-- The kind of report whose acknowledgement the aggregator hears of in a leg. -/
def Leg.heard? (leg : Leg) : Option Target := leg.handled?.bind Input.acknowledged?

/-- The kinds of the reports that a leg has added to the report channel. -/
def Leg.launched (leg : Leg) : List Target :=
  (leg.after.reports.queued.drop leg.before.reports.queued.length).map Report.target

/-! ## The line -/

/-- What the writer has in hands. -/
def Writer.held : Writer → List Target
  | .unstarted | .idle => []
  | .writing r => [r.target]
  | .acknowledging t => [t]

namespace World

/-- Acknowledgements that wait for the aggregator. -/
def acknowledgements (w : World) : List Target := w.inputs.queued.filterMap Input.acknowledged?

/-- **The reports on the way**, oldest first: those whose acknowledgement waits, the one that the writer has
    in hands, and those that wait for the writer. -/
def line (w : World) : List Target :=
  w.acknowledgements ++ w.writer.held ++ w.reports.queued.map Report.target

variable {w v : World} {seen : List Entry}

/-- A step that only sends something that is no acknowledgement. -/
theorem acknowledgements_send? {inputs : Channel Input} {input : Input}
    (hsend : w.inputs.send? input = some inputs) (hno : input.acknowledged? = none) :
    inputs.queued.filterMap Input.acknowledged? = w.acknowledgements := by
  rw [Channel.queued_send? hsend, List.filterMap_append, acknowledgements,
    List.filterMap_cons_none hno, List.filterMap_nil, List.append_nil]

/-- The writer hands on what it takes, other tasks send no acknowledgement, and the line stays as it is. -/
theorem Does.line_eq {t : Task} (h : w.Does t v seen) (hne : t ≠ .aggregator) :
    v.line = w.line ∧ v.reports.queued.length ≤ w.reports.queued.length := by
  cases h with
  | starts | handles => exact absurd rfl hne
  | comes hwriter | writes hwriter | fails hwriter =>
    exact ⟨by simp [line, acknowledgements, Writer.held, hwriter], Nat.le_refl _⟩
  | takes hwriter hreceive =>
    have hqueued := Channel.queued_receive? hreceive
    exact ⟨by simp [line, acknowledgements, Writer.held, hwriter, hqueued], by simp [hqueued]⟩
  | acknowledges hwriter hsend =>
    have hqueued := Channel.queued_send? hsend
    exact ⟨by simp [line, acknowledgements, Writer.held, Input.acknowledged?, hwriter, hqueued], Nat.le_refl _⟩
  | announces _ hsend | sends _ hsend =>
    exact ⟨by rw [line, acknowledgements, acknowledgements_send? hsend rfl]; rfl, Nat.le_refl _⟩
  | runs | keeps | changes | watches | reads | decides => exact ⟨rfl, Nat.le_refl _⟩

/-- **Only the aggregator's task changes the line.** -/
theorem line_of_go_of_ne {move : Move} (h : w.go? move = some (v, seen)) (hne : move ≠ .step .aggregator) :
    v.line = w.line ∧ v.reports.queued.length ≤ w.reports.queued.length := by
  cases move with
  | outside o =>
    cases h
    obtain ⟨_, _, _, _, _, _, -, hoccur⟩ := w.occur_eq o
    rw [hoccur]
    exact ⟨rfl, Nat.le_refl _⟩
  | step t => exact (does_of_go h).line_eq fun ht => hne (ht ▸ rfl)

/-- **Handling an input** puts the reports that find room at the end of their channel. -/
theorem handle_eq (w : World) (input : Input) :
    ∃ a reports power fault kept,
      (w.handle input).1
          = { w with aggregator := a, reports := reports, power := power, fault := fault }
        ∧ reports.queued = w.reports.queued ++ kept
        ∧ ∀ e ∈ (w.handle input).2, ∃ t, e = .notice (.reportDropped t) := by
  unfold handle
  split
  · rename_i fault hstep
    exact ⟨w.aggregator, w.reports, w.power, some fault, [], rfl, (List.append_nil _).symm,
      List.forall_mem_nil _⟩
  · rename_i a out hstep
    obtain ⟨reports, power, kept, hpass, hqueued, hseen⟩ := passAll_eq { w with aggregator := a } out
    exact ⟨a, reports, power, w.fault, kept, hpass, hqueued, hseen⟩

theorem tellPower_eq (w : World) (input : Input) :
    ∃ power, w.tellPower input = { w with power := power } := by
  cases input <;> exact ⟨_, rfl⟩

/-- **The aggregator's task** takes the next input, and reports go to the end of their channel. -/
theorem Does.aggregator_eq (h : w.Does .aggregator v seen) :
    ∃ input a inputs reports power fault kept, w.nextInput? = some input
      ∧ v = { w with
          aggregator := a, inputs := inputs, reports := reports, power := power, fault := fault }
      ∧ w.inputs.queued = (if w.aggregator.started then [input] else []) ++ inputs.queued
      ∧ reports.queued = w.reports.queued ++ kept
      ∧ ∀ e ∈ seen, ∃ t, e = .notice (.reportDropped t) := by
  unfold nextInput?
  cases h with
  | @handles input inputs _ _ hstarted hreceive hhandle =>
    have hqueued := Channel.queued_receive? hreceive
    obtain ⟨power, htell⟩ := tellPower_eq { w with inputs := inputs } input
    rw [htell] at hhandle
    obtain ⟨a, reports, power', fault, kept, hafter, hreports, hseen⟩ :=
      handle_eq { w with inputs := inputs, power := power } input
    rw [hhandle] at hafter hseen
    simp only [hstarted, if_true, hqueued]
    exact ⟨input, a, inputs, reports, power', fault, kept, rfl, hafter, rfl, hreports, hseen⟩
  | starts hnew hhandle =>
    obtain ⟨a, reports, power, fault, kept, hafter, hreports, hseen⟩ := handle_eq w .ready
    rw [hhandle] at hafter hseen
    simp only [hnew]
    exact ⟨.ready, a, w.inputs, reports, power, fault, kept, rfl, hafter, rfl, hreports, hseen⟩

/-- Of the inputs that wait, the next one is taken, or the notice that the device is ready, which does not
    wait in the channel. -/
theorem filterMap_inputs {α : Type} {f : Input → Option α} (hf : f .ready = none) {input : Input}
    {inputs : Channel Input} (hnext : w.nextInput? = some input)
    (hqueued : w.inputs.queued = (if w.aggregator.started then [input] else []) ++ inputs.queued) :
    w.inputs.queued.filterMap f = (f input).toList ++ inputs.queued.filterMap f := by
  rw [hqueued, List.filterMap_append]
  unfold nextInput? at hnext
  split at hnext
  · rename_i hstarted
    rw [if_pos hstarted]
    cases hinput : f input <;> simp [hinput]
  · rename_i hnew
    cases hnext
    rw [if_neg hnew, hf]
    rfl

/-- **Reports move in line.** The aggregator takes the head of the line off as it hears of its
    acknowledgement, and puts new reports at the end. Nothing else changes the line. -/
theorem line_of_go {move : Move} (h : w.go? move = some (v, seen)) :
    v.line = (if (Leg.mk w move v seen).heard?.isSome then w.line.tail else w.line)
      ++ (Leg.mk w move v seen).launched := by
  by_cases hmove : move = .step .aggregator
  · subst hmove
    obtain ⟨input, a, inputs, reports, power, fault, kept, hnext, rfl, hinputs, hreports, -⟩ :=
      (does_of_go h).aggregator_eq
    have hheard : (Leg.mk w (.step .aggregator) { w with
        aggregator := a, inputs := inputs, reports := reports, power := power, fault := fault }
          seen).heard? = input.acknowledged? := by
      rw [Leg.heard?, Leg.handled?, if_pos rfl, hnext]
      rfl
    have hlaunched : (Leg.mk w (.step .aggregator) { w with
        aggregator := a, inputs := inputs, reports := reports, power := power, fault := fault }
          seen).launched = kept.map Report.target := by
      rw [Leg.launched, hreports, List.drop_left]
    rw [hheard, hlaunched]
    -- An input that is no acknowledgement leaves the acknowledgements as they are.
    have hack : w.acknowledgements
        = input.acknowledged?.toList ++ inputs.queued.filterMap Input.acknowledged? :=
      filterMap_inputs rfl hnext hinputs
    have hbefore : w.line = input.acknowledged?.toList
        ++ (inputs.queued.filterMap Input.acknowledged? ++ w.writer.held
          ++ w.reports.queued.map Report.target) := by
      rw [line, hack, List.append_assoc, List.append_assoc, List.append_assoc]
    have hafter : World.line { w with
        aggregator := a, inputs := inputs, reports := reports, power := power, fault := fault }
          = inputs.queued.filterMap Input.acknowledged? ++ w.writer.held
            ++ w.reports.queued.map Report.target ++ kept.map Report.target := by
      rw [line, hreports, List.map_append, ← List.append_assoc]
      rfl
    rw [hbefore, hafter]
    cases input.acknowledged? <;> rfl
  · obtain ⟨hline, hfewer⟩ := line_of_go_of_ne h hmove
    have hheard : (Leg.mk w move v seen).heard? = none := by
      rw [Leg.heard?, Leg.handled?, if_neg hmove]
      rfl
    rw [hheard, Leg.launched, List.drop_eq_nil_of_le hfewer, hline]
    simp

end World

end Peripheral.Firmware
