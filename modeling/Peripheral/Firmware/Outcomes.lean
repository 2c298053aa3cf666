import Peripheral.Firmware.World

/-!
# `Peripheral.Firmware.Outcomes` — what a task can do, and what keeps it waiting

The steps of the tasks are read once, here. A step is one of a few things, each with what has to be the case
for it and the world that it leads to, and a task that cannot take a step waits for one of a few things. What
is kept by all of them is kept by every step, and nothing else needs to know how the steps are written.

## Contents
- `World.Does`, `does_of_step?`: what a task does in a step.
- `World.Waits`, `waits_of_step?_eq_none`: what a task waits for if it cannot take a step.
- `World.occur_eq`: what an occurrence leaves alone.
-/

namespace Peripheral.Firmware

/-! ## Steps -/

/-- **What a task can do in a step**, with the world that this leads to and what is seen of it. -/
inductive World.Does (w : World) : Task → World → List Entry → Prop
  /-- The aggregator hears that the device is ready. -/
  | starts {v : World} {seen : List Entry} (hnew : w.aggregator.started = false)
      (hhandle : w.handle .ready = (v, seen)) : Does w .aggregator v seen
  /-- The aggregator takes an input. -/
  | handles {input : Input} {inputs : Channel Input} {v : World} {seen : List Entry}
      (hstarted : w.aggregator.started = true) (hreceive : w.inputs.receive? = some (input, inputs))
      (hhandle : ({ w with inputs := inputs }.tellPower input).handle input = (v, seen)) :
      Does w .aggregator v seen
  /-- The bus runs. -/
  | runs (hnew : w.usbRunning = false) : Does w .usb { w with usbRunning := true } [.notice .usbRunning]
  /-- The writer is there. -/
  | comes (hwriter : w.writer = .unstarted) : Does w .writer { w with writer := .idle } [.notice .writerRunning]
  /-- The writer takes a report. -/
  | takes {r : Report} {reports : Channel Report} (hwriter : w.writer = .idle)
      (hreceive : w.reports.receive? = some (r, reports)) :
      Does w .writer { w with reports := reports, writer := .writing r } []
  /-- The endpoint takes the report. -/
  | writes {r : Report} (hwriter : w.writer = .writing r) (hmode : w.mode (endpointOf r) = .accepting) :
      Does w .writer { w with writer := .acknowledging r.target } [.written r true]
  /-- The endpoint refuses the report. -/
  | fails {r : Report} (hwriter : w.writer = .writing r) (hmode : w.mode (endpointOf r) = .failing) :
      Does w .writer { w with writer := .acknowledging r.target }
        [.written r false, .notice (.writeFailed r.target)]
  /-- The report is acknowledged. -/
  | acknowledges {t : Target} {inputs : Channel Input} (hwriter : w.writer = .acknowledging t)
      (hsend : w.inputs.send? (.delivered t) = some inputs) :
      Does w .writer { w with inputs := inputs, writer := .idle } []
  /-- A change of the link is sent. -/
  | announces {inputs : Channel Input} (hannouncing : w.link.announcing = true)
      (hsend : w.inputs.send? (.link w.link.enabled) = some inputs) :
      Does w .linkWatch { w with inputs := inputs, link := { w.link with announcing := false } } []
  /-- The host's choice is taken, and is no change. -/
  | keeps (hquiet : w.link.announcing = false) (hchoice : w.configured = some w.link.enabled) :
      Does w .linkWatch { w with configured := none } []
  /-- The host's choice is taken, and is a change. -/
  | changes {choice : Bool} (hquiet : w.link.announcing = false) (hchoice : w.configured = some choice)
      (hne : choice ≠ w.link.enabled) :
      Does w .linkWatch { w with configured := none, link := ⟨choice, true⟩ } [.notice (.subscription choice)]
  /-- The power watch takes something. -/
  | watches {power : PowerWatch} {notices : List PowerNotice}
      (hpower : w.power.step? w.clock = some (power, notices)) :
      Does w .power { w with power := power } (notices.map fun n => .notice (.power n))
  /-- The reading of a button goes on. -/
  | reads {b : Button} {phase : ButtonPhase}
      (hread : (w.buttons.get b).step? w.clock (w.low.get b) w.inputs.hasRoom = some (phase, .nothing)) :
      Does w (.button b) { w with buttons := w.buttons.set b phase } []
  /-- A button is taken to be down or up. -/
  | decides {b : Button} {phase : ButtonPhase} {pressed : Bool}
      (hread : (w.buttons.get b).step? w.clock (w.low.get b) w.inputs.hasRoom = some (phase, .decide pressed)) :
      Does w (.button b) { w with buttons := w.buttons.set b phase } [.notice (.button b.key pressed)]
  /-- The event of a button is sent. -/
  | sends {b : Button} {phase : ButtonPhase} {pressed : Bool} {inputs : Channel Input}
      (hread : (w.buttons.get b).step? w.clock (w.low.get b) w.inputs.hasRoom = some (phase, .send pressed))
      (hsend : w.inputs.send? (.key b.key pressed) = some inputs) :
      Does w (.button b) { w with buttons := w.buttons.set b phase, inputs := inputs } []

namespace World

variable {w v : World} {t : Task} {seen : List Entry}

theorem does_of_stepAggregator? (h : w.stepAggregator? = some (v, seen)) : w.Does .aggregator v seen := by
  unfold stepAggregator? at h
  split at h
  · rename_i hstarted
    split at h
    · cases h
    · rename_i hreceive
      exact .handles hstarted hreceive (Option.some.inj h)
  · rename_i hnew
    exact .starts (by simpa using hnew) (Option.some.inj h)

theorem does_of_stepUsb? (h : w.stepUsb? = some (v, seen)) : w.Does .usb v seen := by
  unfold stepUsb? at h
  split at h
  · cases h
  · rename_i hnew
    cases h
    exact .runs (by simpa using hnew)

theorem does_of_stepWriter? (h : w.stepWriter? = some (v, seen)) : w.Does .writer v seen := by
  unfold stepWriter? at h
  split at h
  · rename_i hwriter
    cases h
    exact .comes hwriter
  · rename_i hwriter
    split at h
    · cases h
    · rename_i hreceive
      cases h
      exact .takes hwriter hreceive
  · rename_i r hwriter
    split at h
    · cases h
    · rename_i hmode
      cases h
      exact .writes hwriter hmode
    · rename_i hmode
      cases h
      exact .fails hwriter hmode
  · rename_i target hwriter
    split at h
    · cases h
    · rename_i hsend
      cases h
      exact .acknowledges hwriter hsend

theorem does_of_stepLink? (h : w.stepLink? = some (v, seen)) : w.Does .linkWatch v seen := by
  unfold stepLink? at h
  split at h
  · rename_i hannouncing
    split at h
    · cases h
    · rename_i hsend
      cases h
      exact .announces hannouncing hsend
  · rename_i hannouncing
    have hquiet : w.link.announcing = false := by simpa using hannouncing
    split at h
    · cases h
    · rename_i hchoice
      split at h
      · rename_i hsame
        cases h
        exact .keeps hquiet (hsame ▸ hchoice)
      · rename_i hne
        cases h
        exact .changes hquiet hchoice hne

theorem does_of_stepPower? (h : w.stepPower? = some (v, seen)) : w.Does .power v seen := by
  unfold stepPower? at h
  split at h
  · cases h
  · rename_i hpower
    cases h
    exact .watches hpower

theorem does_of_stepButton? {b : Button} (h : w.stepButton? b = some (v, seen)) : w.Does (.button b) v seen := by
  unfold stepButton? at h
  split at h
  · cases h
  · rename_i phase deed hread
    cases deed with
    | nothing =>
      cases h
      exact .reads hread
    | decide pressed =>
      cases h
      exact .decides hread
    | send pressed =>
      obtain ⟨inputs, hsend, heq⟩ := Option.map_eq_some_iff.mp h
      cases heq
      exact .sends hread hsend

/-- **Every step is one of these.** -/
theorem does_of_step? (h : w.step? t = some (v, seen)) : w.Does t v seen := by
  unfold step? at h
  split at h
  · cases h
  · cases t with
    | aggregator => exact does_of_stepAggregator? h
    | usb => exact does_of_stepUsb? h
    | writer => exact does_of_stepWriter? h
    | linkWatch => exact does_of_stepLink? h
    | power => exact does_of_stepPower? h
    | button b => exact does_of_stepButton? h

end World

/-! ## Waiting -/

/-- **What a task can wait for**, as long as no fault has brought everything to a stop. -/
inductive World.Waits (w : World) : Task → Prop
  /-- An input. -/
  | input (hstarted : w.aggregator.started = true) (hnone : w.inputs.receive? = none) : Waits w .aggregator
  /-- Nothing more: the bus runs. -/
  | running (hrunning : w.usbRunning = true) : Waits w .usb
  /-- A report. -/
  | report (hwriter : w.writer = .idle) (hnone : w.reports.receive? = none) : Waits w .writer
  /-- The endpoint. -/
  | endpoint {r : Report} (hwriter : w.writer = .writing r) (hmode : w.mode (endpointOf r) = .blocked) :
      Waits w .writer
  /-- Room for an acknowledgement. -/
  | acknowledgement {t : Target} (hwriter : w.writer = .acknowledging t)
      (hfull : w.inputs.send? (.delivered t) = none) : Waits w .writer
  /-- Room for an announcement. -/
  | announcement (hannouncing : w.link.announcing = true)
      (hfull : w.inputs.send? (.link w.link.enabled) = none) : Waits w .linkWatch
  /-- A choice of the host. -/
  | choice (hquiet : w.link.announcing = false) (hnone : w.configured = none) : Waits w .linkWatch
  /-- Something to take for the power watch. -/
  | power (hnone : w.power.step? w.clock = none) : Waits w .power
  /-- A level, a time, or room for the event of a button. -/
  | button {b : Button} (hnone : (w.buttons.get b).step? w.clock (w.low.get b) w.inputs.hasRoom = none) :
      Waits w (.button b)

namespace World

variable {w : World} {t : Task}

/-- **A task that cannot take a step waits for one of these.** -/
theorem waits_of_step?_eq_none (hfault : w.fault = none) (h : w.step? t = none) : w.Waits t := by
  simp only [step?, hfault, Option.isSome_none, Bool.false_eq_true, if_false] at h
  cases t with
  | aggregator =>
    simp only [stepAggregator?] at h
    split at h
    · rename_i hstarted
      split at h
      · exact .input hstarted ‹_›
      · cases h
    · cases h
  | usb =>
    simp only [stepUsb?] at h
    split at h
    · exact .running ‹_›
    · cases h
  | writer =>
    simp only [stepWriter?] at h
    split at h
    · cases h
    · rename_i hwriter
      split at h
      · exact .report hwriter ‹_›
      · cases h
    · rename_i r hwriter
      split at h
      · exact .endpoint hwriter ‹_›
      · cases h
      · cases h
    · rename_i target hwriter
      split at h
      · exact .acknowledgement hwriter ‹_›
      · cases h
  | linkWatch =>
    simp only [stepLink?] at h
    split at h
    · rename_i hannouncing
      split at h
      · exact .announcement hannouncing ‹_›
      · cases h
    · rename_i hannouncing
      split at h
      · exact .choice (by simpa using hannouncing) ‹_›
      · split at h <;> cases h
  | power =>
    simp only [stepPower?] at h
    split at h
    · exact .power ‹_›
    · cases h
  | button b =>
    simp only [stepButton?] at h
    split at h
    · exact .button ‹_›
    · rename_i phase deed hread
      cases deed with
      | nothing | decide => cases h
      | send pressed =>
        -- A button's event is sent only where there is room for it.
        have hroom := ButtonPhase.room_of_send hread
        simp [Channel.send?, hroom] at h

/-- **What happens from outside** touches the pins, the endpoints, the host's choice and the power watch, and
    nothing else. Time does not go back. -/
theorem occur_eq (w : World) (o : Occurrence) :
    ∃ clock low keyboardMode mouseMode configured power, w.clock ≤ clock
      ∧ w.occur o = { w with
          clock := clock, low := low, keyboardMode := keyboardMode, mouseMode := mouseMode,
          configured := configured, power := power } := by
  cases o with
  | elapse ms => exact ⟨_, _, _, _, _, _, Nat.le_add_right _ ms, rfl⟩
  | endpoint e mode => cases e <;> exact ⟨_, _, _, _, _, _, Nat.le_refl _, rfl⟩
  | level pin low =>
    unfold occur
    dsimp only
    split <;> exact ⟨_, _, _, _, _, _, Nat.le_refl _, rfl⟩
  | configured value => exact ⟨_, _, _, _, _, _, Nat.le_refl _, rfl⟩
  | suspended value => exact ⟨_, _, _, _, _, _, Nat.le_refl _, rfl⟩

end World

end Peripheral.Firmware
