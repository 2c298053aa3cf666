import Peripheral.Proofs.Course
import Peripheral.Proofs.FaultFree

/-!
# `Peripheral.Proofs.Running` — a device that never stops

The aggregator's task takes an input, and what the aggregator says to it is passed on; every other move leaves
the aggregator alone, and changes the input channel only by sending something into it. The device says that it
is ready once, before anything else, so no course ends in a fault.

## Contents
- `World.Goes`, `World.goes_of_go`: the moves other than the aggregator's.
- `World.Healthy`, `Healthy.handles`: what every world keeps, and what the aggregator's task does in it.
- `Healthy.waits`, `Healthy.inputs_of_atRest`: healthy worlds at rest.
- `Course.healthy`: every world of a course is healthy.
-/

namespace Peripheral

/-- What the power watch is told of an input: news of the link, and nothing else. -/
def PowerWatch.told (p : PowerWatch) : Input → PowerWatch
  | .link up => p.signalSubscribed up
  | _ => p

end Peripheral

namespace Peripheral.Firmware

/-! ## Moves other than the aggregator's -/

/-- The choice that the host makes in a move. -/
def Move.choice? : Move → Option Bool
  | .outside (.configured choice) => some choice
  | _ => none

/-- **What a move of another task, or from outside, can do** as far as the aggregator, the input channel, the
    link and the power watch are concerned. -/
inductive World.Goes (w : World) : Move → World → Prop
  /-- An acknowledgement or a key is sent. -/
  | sends {t : Task} {input : Input} {inputs : Channel Input} {writer : Writer}
      {buttons : PerButton ButtonPhase} (hsend : w.inputs.send? input = some inputs)
      (hready : input ≠ .ready) (hlink : input.link? = none) :
      Goes w (.step t) { w with inputs := inputs, writer := writer, buttons := buttons }
  /-- A change of the link is sent. -/
  | announces {inputs : Channel Input} (hwaits : w.link.announcing = true)
      (hsend : w.inputs.send? (.link w.link.enabled) = some inputs) :
      Goes w (.step .linkWatch) { w with inputs := inputs, link := { w.link with announcing := false } }
  /-- The host's choice is taken, and is no change. -/
  | keeps (hchoice : w.configured = some w.link.enabled) :
      Goes w (.step .linkWatch) { w with configured := none }
  /-- The host's choice is taken, and is a change. -/
  | changes {choice : Bool} (hquiet : w.link.announcing = false) (hchoice : w.configured = some choice)
      (hne : choice ≠ w.link.enabled) :
      Goes w (.step .linkWatch) { w with configured := none, link := ⟨choice, true⟩ }
  /-- The power watch takes something. -/
  | watches {power : PowerWatch} {notices : List PowerNotice}
      (hstep : w.power.step? w.clock = some (power, notices)) :
      Goes w (.step .power) { w with power := power }
  /-- The host makes a choice. -/
  | chooses {choice : Bool} : Goes w (.outside (.configured choice)) { w with configured := some choice }
  /-- The host suspends or resumes the bus. -/
  | suspends {suspended : Bool} :
      Goes w (.outside (.suspended suspended)) { w with power := w.power.signalSuspended suspended }
  /-- Something else goes on. -/
  | aside {move : Move} {clock : Nat} {low : PerButton Bool} {keyboardMode mouseMode : EndpointMode}
      {reports : Channel Report} {usbRunning : Bool} {writer : Writer} {buttons : PerButton ButtonPhase}
      (hnone : move.choice? = none) :
      Goes w move { w with
        clock := clock, low := low, keyboardMode := keyboardMode, mouseMode := mouseMode,
        reports := reports, usbRunning := usbRunning, writer := writer, buttons := buttons }

namespace World

variable {w v : World} {move : Move} {seen : List Entry}

theorem Does.goes {t : Task} (h : w.Does t v seen) (hne : t ≠ .aggregator) : w.Goes (.step t) v := by
  cases h with
  | starts | handles => exact absurd rfl hne
  | runs | comes | takes | writes | fails | reads | decides => exact .aside rfl
  | acknowledges _ hsend | sends _ hsend => exact .sends hsend (by simp) rfl
  | announces hannouncing hsend => exact .announces hannouncing hsend
  | keeps _ hchoice => exact .keeps hchoice
  | changes hquiet hchoice hchange => exact .changes hquiet hchoice hchange
  | watches hpower => exact .watches hpower

theorem goes_occur (w : World) (o : Occurrence) : w.Goes (.outside o) (w.occur o) := by
  cases o with
  | elapse ms => exact .aside rfl
  | endpoint e mode => cases e <;> exact .aside rfl
  | level pin low =>
    unfold occur
    dsimp only
    split <;> exact .aside rfl
  | configured value => exact .chooses
  | suspended value => exact .suspends

/-- **Every move but the aggregator's is one of these.** -/
theorem goes_of_go (h : w.go? move = some (v, seen)) (hne : move ≠ .step .aggregator) :
    w.Goes move v := by
  cases move with
  | outside o =>
    cases h
    exact w.goes_occur o
  | step t => exact (does_of_go h).goes fun ht => hne (ht ▸ rfl)

/-- The aggregator is left alone. -/
theorem Goes.aggregator_eq (h : w.Goes move v) : v.aggregator = w.aggregator := by
  cases h <;> rfl

/-! ## Healthy worlds -/

/-- **What every world of a course keeps**: the invariant of the aggregator, no fault, no second notice that
    the device is ready, and the places of the input channel. -/
structure Healthy (w : World) : Prop where
  sound : w.aggregator.Sound
  fault : w.fault = none
  ready : .ready ∉ w.inputs.queued
  places : w.inputs.places = Limits.inputPlaces

theorem healthy_initial : initial.Healthy where
  sound := Aggregator.sound_create _ _
  fault := rfl
  ready := List.not_mem_nil
  places := rfl

/-- The power watch is told before the aggregator handles the input. -/
theorem tellPower_eq_told (w : World) (input : Input) :
    w.tellPower input = { w with power := w.power.told input } := by
  cases input <;> rfl

/-- Without a fault, what the aggregator says is passed on. -/
theorem handle_of_step {input : Input} {a : Aggregator} {out : List Output}
    (h : w.aggregator.step input w.now = .ok (a, out)) :
    w.handle input = { w with aggregator := a }.passAll out := by
  rw [handle, h]

/-- **The aggregator's task in a healthy world**: it takes the next input, tells the power watch of it, and
    passes on what the aggregator says. -/
theorem Healthy.handles (h : w.Healthy) (hgo : w.go? (.step .aggregator) = some (v, seen)) :
    ∃ input a out inputs, w.nextInput? = some input
      ∧ w.aggregator.step input w.now = .ok (a, out)
      ∧ w.inputs.queued = (if w.aggregator.started then [input] else []) ++ inputs.queued
      ∧ inputs.places = w.inputs.places
      ∧ World.passAll { w with inputs := inputs, power := w.power.told input, aggregator := a } out
          = (v, seen) := by
  unfold nextInput?
  cases does_of_go hgo with
  | @handles input inputs _ _ hstarted hreceive hhandle =>
    have hqueued := Channel.queued_receive? hreceive
    -- An input that waits is no notice that the device is ready.
    have hready : input = .ready → w.aggregator.started = false := by
      rintro rfl
      exact absurd (hqueued ▸ List.mem_cons_self) h.ready
    obtain ⟨a, out, ha⟩ := h.sound.exists_step hready w.now
    refine ⟨input, a, out, inputs, ?_, ha, ?_, Channel.places_receive? hreceive, ?_⟩
    · rw [if_pos hstarted, hqueued]
      rfl
    · rw [if_pos hstarted, hqueued]
      rfl
    · rwa [tellPower_eq_told,
        handle_of_step (w := { w with inputs := inputs, power := w.power.told input }) ha] at hhandle
  | starts hnew hhandle =>
    obtain ⟨a, out, ha⟩ := h.sound.exists_step (fun _ => hnew) w.now
    rw [handle_of_step ha] at hhandle
    exact ⟨.ready, a, out, w.inputs, by simp [hnew], ha, by simp [hnew], rfl, hhandle⟩

/-- **Every move keeps the world healthy.** -/
theorem Healthy.go (h : w.Healthy) (hgo : w.go? move = some (v, seen)) : v.Healthy := by
  by_cases hmove : move = .step .aggregator
  · subst hmove
    obtain ⟨input, a, out, inputs, -, hstep, hqueued, hplaces, hpass⟩ := h.handles hgo
    obtain ⟨reports, power, kept, hframe, -, -⟩ :=
      passAll_eq { w with inputs := inputs, power := w.power.told input, aggregator := a } out
    rw [hpass] at hframe
    subst hframe
    exact
      { sound := h.sound.step hstep
        fault := h.fault
        ready := fun hready => h.ready (hqueued ▸ List.mem_append_right _ hready)
        places := hplaces.trans h.places }
  · cases goes_of_go hgo hmove with
    | sends hsend hready hlink =>
      have hnone := h.ready
      refine { h with ready := ?_, places := (Channel.places_send? hsend).trans h.places }
      rw [Channel.queued_send? hsend]
      simp [hnone, hready.symm]
    | announces hwaits hsend =>
      have hnone := h.ready
      refine { h with ready := ?_, places := (Channel.places_send? hsend).trans h.places }
      rw [Channel.queued_send? hsend]
      simp [hnone]
    | _ => exact { h with }

/-! ## Worlds at rest -/

theorem mem_all (t : Task) : t ∈ Task.all := by
  cases t with
  | button b => cases b <;> decide
  | _ => decide

/-- At rest every task waits, and no fault is what keeps it. -/
theorem Healthy.waits (h : w.Healthy) (hrest : w.atRest = true) (t : Task) : w.Waits t :=
  waits_of_step?_eq_none h.fault (Option.isNone_iff_eq_none.mp (List.all_eq_true.mp hrest t (mem_all t)))

/-- At rest no input waits. -/
theorem Healthy.inputs_of_atRest (h : w.Healthy) (hrest : w.atRest = true) : w.inputs.queued = [] := by
  cases h.waits hrest .aggregator with
  | input hstarted hnone => exact Channel.queued_of_receive?_eq_none hnone

/-- At rest there is room in the input channel. -/
theorem Healthy.send?_of_atRest (h : w.Healthy) (hrest : w.atRest = true) (input : Input) :
    w.inputs.send? input ≠ none :=
  Channel.send?_ne_none (h.inputs_of_atRest hrest) (h.places ▸ by decide) input

end World

/-- **Every world of a course is healthy.** -/
theorem Course.healthy {legs : List Leg} {w : World} (h : Course legs w) : w.Healthy := by
  induction h with
  | powerOn => exact World.healthy_initial
  | leg h hgo ih => exact ih.go hgo

end Peripheral.Firmware
