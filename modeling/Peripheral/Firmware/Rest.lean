import Peripheral.Firmware.Load
import Peripheral.Firmware.Outcomes

/-!
# `Peripheral.Firmware.Rest` — the tasks come to rest

Every step of a task lowers the load of the world: what a step hands on is worth less than what it
takes. So the bounds under which tasks and rounds run are never what stops them.

## Contents
- `World.Does.load_lt`, `load_step?`: every step of a task lowers the load.
- `step?_poll`, `load_round?`: a polled task waits, and a round lowers the load.
- `atRest_settle`: a settled world is at rest.
-/

namespace Peripheral.Firmware

open World

/-! ## The power watch -/

theorem load_signalActivity (p : PowerWatch) (clock : Nat) :
    p.signalActivity.load clock ≤ p.load clock + 1 := by
  simp only [PowerWatch.load, PowerWatch.signalActivity, PowerWatch.ticksDue, Bool.toNat_true]
  omega

theorem load_signalSubscribed (p : PowerWatch) (value : Bool) (clock : Nat) :
    (p.signalSubscribed value).load clock ≤ p.load clock + 1 := by
  simp only [PowerWatch.load, PowerWatch.signalSubscribed, PowerWatch.ticksDue, Option.isSome_some,
    Bool.toNat_true]
  omega

/-! ## The buttons -/

/-- Steps that an event of a button can cause once it is sent. -/
def deedLoad : ButtonDeed → Nat
  | .send _ => 16
  | _ => 0

/-- A step of a button is worth more than the event it sends. A time that has just been set is not
    over at once, so a button never runs in a circle. -/
theorem ButtonPhase.load_step? {clock : Nat} {low room : Bool} {phase phase' : ButtonPhase}
    {deed : ButtonDeed} (h : phase.step? clock low room = some (phase', deed)) :
    phase'.load clock + deedLoad deed < phase.load clock := by
  have hlater : clock < clock + Limits.debounce := Nat.lt_add_of_pos_right (by decide)
  cases reads_of_step? h with
  | rise | press | release => simp [load, deedLoad]
  | fall | leave => simp [load, deedLoad, hlater]
  | confirm hdue | reject hdue | settle hdue => simp [load, deedLoad, Nat.not_lt.mpr hdue]

theorem buttonsLoad_set (clock : Nat) (buttons : PerButton ButtonPhase) (b : Button)
    (phase : ButtonPhase) :
    buttonsLoad clock (buttons.set b phase) + (buttons.get b).load clock
      = buttonsLoad clock buttons + phase.load clock := by
  cases b <;> simp only [buttonsLoad, PerButton.get, PerButton.set] <;> omega

/-! ## The world -/

theorem load_eq (w : World) :
    w.load = inputsLoad w.inputs.queued + 4 * w.reports.queued.length + w.writer.load
      + aggregatorLoad w.aggregator
      + (if w.usbRunning then 0 else 1)
      + (if w.link.announcing then 4 else 0) + (if w.configured.isSome then 5 else 0)
      + w.power.load w.clock
      + buttonsLoad w.clock w.buttons := rfl

theorem inputsLoad_append (l m : List Input) :
    inputsLoad (l ++ m) = inputsLoad l + inputsLoad m := by
  induction l with
  | nil => simp [inputsLoad]
  | cons i rest ih =>
    simp only [List.cons_append, inputsLoad, ih]
    omega

/-- Sending an input adds what it is worth. -/
theorem inputsLoad_send? {c c' : Channel Input} {input : Input} (h : c.send? input = some c') :
    inputsLoad c'.queued = inputsLoad c.queued + inputLoad input := by
  rw [Channel.queued_send? h, inputsLoad_append]
  rfl

/-- Receiving an input takes what it is worth. -/
theorem inputsLoad_receive? {c c' : Channel Input} {input : Input}
    (h : c.receive? = some (input, c')) :
    inputsLoad c.queued = inputLoad input + inputsLoad c'.queued := by
  rw [Channel.queued_receive? h]
  rfl

theorem pass_load (w : World) (o : Output) : (w.pass o).1.load ≤ w.load + outputLoad o := by
  cases o with
  | report r =>
    simp only [World.pass]
    split
    · rename_i reports h
      simp only [load_eq, outputLoad, Channel.queued_send? h, List.length_append, List.length_cons,
        List.length_nil]
      omega
    · exact Nat.le_add_right _ _
  | activity =>
    have := load_signalActivity w.power w.clock
    simp only [World.pass, load_eq, outputLoad]
    omega

theorem passAll_load (w : World) (outputs : List Output) :
    (w.passAll outputs).1.load ≤ w.load + outputsLoad outputs := by
  induction outputs generalizing w with
  | nil => exact Nat.le_refl _
  | cons o rest ih =>
    have hfirst := pass_load w o
    have hrest := ih (w.pass o).1
    simp only [World.passAll, outputsLoad] at hrest ⊢
    omega

/-- An input that is handled leaves less than it was worth. -/
theorem handle_load (w : World) (input : Input) :
    (w.handle input).1.load + handlingLoad input ≤ w.load + inputLoad input := by
  unfold World.handle
  split
  · exact Nat.add_le_add_left (handlingLoad_le input) _
  · rename_i a out h
    have hstep := load_of_step h
    have hpass := passAll_load { w with aggregator := a } out
    simp only [load_eq] at hpass ⊢
    omega

theorem tellPower_load (w : World) (input : Input) :
    (w.tellPower input).load + 1 ≤ w.load + handlingLoad input := by
  cases input with
  | link up =>
    have := load_signalSubscribed w.power up w.clock
    simp only [World.tellPower, handlingLoad, load_eq] at this ⊢
    omega
  | _ => exact Nat.le_refl _

/-- The announcement that the device is ready leaves less than it was worth. -/
theorem handle_ready_load {w : World} (h : w.aggregator.started = false) :
    (w.handle .ready).1.load < w.load := by
  have hok : w.aggregator.step .ready w.now
      = .ok ({ w.aggregator with started := true, backlog := w.aggregator.backlog.clear }, []) := by
    simp [Aggregator.step, Aggregator.start, h, bind, Except.bind, pure, Except.pure]
  have hstart : w.aggregator.start
      = .ok { w.aggregator with started := true, backlog := w.aggregator.backlog.clear } := by
    simp [Aggregator.start, h, pure, Except.pure]
  have hload := (start_load hstart).1
  simp only [World.handle, hok, World.passAll, load_eq] at hload ⊢
  omega

/-! ## Steps of the tasks -/

/-- **Every step lowers the load**: what it hands on is worth less than what it takes. -/
theorem World.Does.load_lt {w v : World} {t : Task} {seen : List Entry} (h : w.Does t v seen) :
    v.load < w.load := by
  cases h with
  | starts hnew hhandle =>
    have hready := handle_ready_load hnew
    rwa [hhandle] at hready
  | @handles input inputs _ _ hstarted hreceive hhandle =>
    have hinputs := inputsLoad_receive? hreceive
    have htell := tellPower_load { w with inputs := inputs } input
    have hload := handle_load ({ w with inputs := inputs }.tellPower input) input
    rw [hhandle] at hload
    dsimp only at hload
    rw [load_eq w]
    simp only [load_eq { w with inputs := inputs }] at htell
    omega
  | runs hnew => simp [load_eq, hnew]
  | comes hwriter | writes hwriter | fails hwriter =>
    simp only [load_eq, hwriter, Writer.load]
    omega
  | takes hwriter hreceive =>
    have hlen := congrArg List.length (Channel.queued_receive? hreceive)
    simp only [List.length_cons] at hlen
    simp only [load_eq, hwriter, Writer.load]
    omega
  | acknowledges hwriter hsend =>
    have hinputs := inputsLoad_send? hsend
    simp only [load_eq, hwriter, Writer.load, inputLoad] at hinputs ⊢
    omega
  | announces hannouncing hsend =>
    have hinputs := inputsLoad_send? hsend
    simp only [load_eq, hannouncing, inputLoad, Bool.false_eq_true, if_true, if_false] at hinputs ⊢
    omega
  | keeps hquiet hchoice =>
    simp only [load_eq, hquiet, hchoice, Option.isSome_some, Option.isSome_none, Bool.false_eq_true, if_true,
      if_false]
    omega
  | changes hquiet hchoice =>
    simp only [load_eq, hquiet, hchoice, Option.isSome_some, Option.isSome_none, Bool.false_eq_true, if_true,
      if_false]
    omega
  | watches hpower =>
    have := PowerWatch.load_step? hpower
    simp only [load_eq]
    omega
  | @reads b phase hread | @decides b phase _ hread =>
    have hphase := ButtonPhase.load_step? hread
    have hset := buttonsLoad_set w.clock w.buttons b phase
    simp only [load_eq, deedLoad] at hphase ⊢
    omega
  | @sends b phase _ _ hread hsend =>
    have hphase := ButtonPhase.load_step? hread
    have hset := buttonsLoad_set w.clock w.buttons b phase
    have hinputs := inputsLoad_send? hsend
    simp only [load_eq, deedLoad, inputLoad] at hphase hinputs ⊢
    omega

theorem load_step? {t : Task} {w w' : World} {entries : List Entry}
    (h : w.step? t = some (w', entries)) : w'.load < w.load :=
  (does_of_step? h).load_lt

/-! ## Rounds -/

/-- A task that has been polled has to wait. -/
theorem step?_poll (t : Task) (w : World) : (w.poll t).1.step? t = none :=
  Stepping.exhaust_waits (fun _ _ _ h => load_step? h) w

/-- A poll lowers the load, unless the task has to wait and nothing happens. -/
theorem poll_load (t : Task) (w : World) :
    (w.poll t).1.load < w.load ∨ (w.poll t).1 = w ∧ w.step? t = none := by
  cases hstep : w.step? t with
  | none => exact .inr ⟨Stepping.exhaust_eq_of_waits hstep w.load, rfl⟩
  | some r =>
    obtain ⟨w', entries⟩ := r
    have hfall := load_step? hstep
    refine .inl (Stepping.exhaust_lt ?_ hstep (by omega))
    exact fun _ _ _ h => load_step? h

/-- Polling tasks lowers the load, unless all of them have to wait and nothing happens. -/
theorem pollAll_load (ts : List Task) (w : World) :
    (pollAll ts w).1.load < w.load ∨ (pollAll ts w).1 = w ∧ ∀ t ∈ ts, w.step? t = none := by
  induction ts generalizing w with
  | nil => exact .inr ⟨rfl, by simp⟩
  | cons t rest ih =>
    have hrest := ih (w.poll t).1
    simp only [World.pollAll]
    rcases poll_load t w with hlt | ⟨heq, hwait⟩
    · rcases hrest with hrest | ⟨hrest, _⟩
      · exact .inl (Nat.lt_trans hrest hlt)
      · rw [hrest]
        exact .inl hlt
    · rw [heq] at hrest ⊢
      rcases hrest with hrest | ⟨hrest, hall⟩
      · exact .inl hrest
      · exact .inr ⟨hrest, List.forall_mem_cons.mpr ⟨hwait, hall⟩⟩

/-- A round lowers the load. -/
theorem load_round? {w w' : World} {entries : List Entry} (h : w.round? = some (w', entries)) :
    w'.load < w.load := by
  unfold World.round? at h
  split at h
  · cases h
  · rename_i hrest
    have hw : (pollAll Task.all w).1 = w' := congrArg Prod.fst (Option.some.inj h)
    rw [← hw]
    rcases pollAll_load Task.all w with hlt | ⟨_, hwait⟩
    · exact hlt
    · refine absurd ?_ hrest
      simpa [World.atRest, Option.isNone_iff_eq_none] using hwait

/-- A settled world is at rest: every task has to wait. -/
theorem atRest_settle (w : World) : w.settle.1.atRest = true := by
  have h := Stepping.exhaust_waits (fun _ _ _ h => load_round? h) w
  change w.settle.1.round? = none at h
  unfold World.round? at h
  split at h
  · assumption
  · cases h

end Peripheral.Firmware
