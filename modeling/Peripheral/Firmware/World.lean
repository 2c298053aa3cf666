import Peripheral.Aggregator
import Peripheral.Firmware.Button
import Peripheral.Firmware.Channel
import Peripheral.Firmware.Journal
import Peripheral.Power.Watch

/-!
# `Peripheral.Firmware.World` — the device as tasks that share channels

Nine tasks make up the device. Four read a button each and one watches the host's configuration;
what they find goes through the input channel to the aggregator. Its reports go through the report
channel to the writer, which hands them to the endpoints one after the other and acknowledges each
through the input channel, delivered or not. One task runs the bus, and one watches over power.

A task runs until it has to wait: for a message, for room in a channel, for a level, for a time, or
for an endpoint. A step is the part of a task between two points at which it could be made to wait.

## Contents
- `EndpointMode`, `Writer`, `LinkWatch`, `Task`, `World`: the tasks and what they share.
- `World.step?`: the next step of a task, `none` where the task has to wait.
- `Occurrence`, `World.occur`: what happens to the device from outside.
-/

namespace Peripheral.Firmware

/-- What an endpoint does with a report. -/
inductive EndpointMode
  /-- Takes it. -/
  | accepting
  /-- Refuses it at once. -/
  | failing
  /-- Leaves the writer waiting. -/
  | blocked
  deriving DecidableEq, Repr

/-- An endpoint of the device. -/
inductive Endpoint
  | keyboard
  | mouse
  deriving DecidableEq, Repr

/-- The endpoint to which a report goes. -/
def endpointOf : Report → Endpoint
  | .keyboard _ => .keyboard
  | .mouse _ => .mouse

/-- Where the writer stands. -/
inductive Writer
  /-- Has not run yet. -/
  | unstarted
  /-- Waits for a report. -/
  | idle
  /-- Waits for the endpoint to take a report. -/
  | writing (r : Report)
  /-- Waits for room to acknowledge a report. -/
  | acknowledging (target : Target)
  deriving DecidableEq, Repr

/-- Where the watch over the host's configuration stands. -/
structure LinkWatch where
  /-- The host takes reports, as far as the watch has announced it. -/
  enabled : Bool
  /-- The announcement waits for room. -/
  announcing : Bool
  deriving DecidableEq, Repr

/-- The tasks of the device. -/
inductive Task
  | aggregator
  | usb
  | writer
  | linkWatch
  | power
  | button (b : Button)
  deriving DecidableEq, Repr

/-- The tasks, in the order in which they are started and looked at. -/
def Task.all : List Task :=
  [aggregator, usb, writer, linkWatch, power] ++ Button.all.map button

/-- The device and its surroundings at one moment. -/
structure World where
  /-- Milliseconds since power came on. -/
  clock : Nat
  /-- The pins at a low level. -/
  low : PerButton Bool
  keyboardMode : EndpointMode
  mouseMode : EndpointMode
  /-- The host's latest choice of configuration, if it has not been taken yet. -/
  configured : Option Bool
  inputs : Channel Input
  reports : Channel Report
  aggregator : Aggregator
  usbRunning : Bool
  writer : Writer
  link : LinkWatch
  power : PowerWatch
  buttons : PerButton ButtonPhase
  /-- The fault that brought everything to a stop. -/
  fault : Option Fault
  deriving Repr

namespace World

/-- The device when power comes on, before any task has run. -/
def initial : World where
  clock := 0
  low := .same false
  keyboardMode := .accepting
  mouseMode := .accepting
  configured := none
  inputs := Channel.empty Limits.inputPlaces
  reports := Channel.empty Limits.reportPlaces
  aggregator := Aggregator.create Layout.standard Limits.staleAfter
  usbRunning := false
  writer := .unstarted
  link := ⟨false, false⟩
  power := PowerWatch.create 0
  buttons := .same .resting
  fault := none

/-- The mode of an endpoint. -/
def mode (w : World) : Endpoint → EndpointMode
  | .keyboard => w.keyboardMode
  | .mouse => w.mouseMode

/-- The aggregator's clock, which wraps. -/
def now (w : World) : UInt32 := UInt32.ofNat w.clock

/-! ## Steps of the tasks -/

/-- Pass an output on: a report to the writer if there is room for it, and activity to the power
    watch. -/
def pass (w : World) : Output → World × List Entry
  | .report r =>
    match w.reports.send? r with
    | some reports => ({ w with reports := reports }, [])
    | none => (w, [.notice (.reportDropped r.target)])
  | .activity => ({ w with power := w.power.signalActivity }, [])

/-- Pass outputs on, one after the other. -/
def passAll (w : World) : List Output → World × List Entry
  | [] => (w, [])
  | o :: rest =>
    let (w, entries) := w.pass o
    let (w, later) := passAll w rest
    (w, entries ++ later)

/-- Let the aggregator handle an input. After a fault nothing runs any more. -/
def handle (w : World) (input : Input) : World × List Entry :=
  match w.aggregator.step input w.now with
  | .error fault => ({ w with fault := some fault }, [])
  | .ok (a, outputs) => { w with aggregator := a }.passAll outputs

/-- News of the link goes to the power watch before the aggregator handles it. -/
def tellPower (w : World) : Input → World
  | .link up => { w with power := w.power.signalSubscribed up }
  | _ => w

/-- The aggregator's task: it announces that the device is ready, and then handles one input after
    the other. -/
def stepAggregator? (w : World) : Option (World × List Entry) :=
  if w.aggregator.started then
    match w.inputs.receive? with
    | none => none
    | some (input, inputs) => some (({ w with inputs := inputs }.tellPower input).handle input)
  else
    some (w.handle .ready)

/-- The bus task has nothing to do but to run. -/
def stepUsb? (w : World) : Option (World × List Entry) :=
  if w.usbRunning then none
  else some ({ w with usbRunning := true }, [.notice .usbRunning])

/-- The writer's task: it takes a report, waits for its endpoint, and acknowledges the report
    whether the endpoint took it or not. -/
def stepWriter? (w : World) : Option (World × List Entry) :=
  match w.writer with
  | .unstarted => some ({ w with writer := .idle }, [.notice .writerRunning])
  | .idle =>
    match w.reports.receive? with
    | none => none
    | some (r, reports) => some ({ w with reports := reports, writer := .writing r }, [])
  | .writing r =>
    match w.mode (endpointOf r) with
    | .blocked => none
    | .accepting => some ({ w with writer := .acknowledging r.target }, [.written r true])
    -- A report that was refused is acknowledged too, or the aggregator would wait for ever.
    | .failing =>
      some ({ w with writer := .acknowledging r.target },
        [.written r false, .notice (.writeFailed r.target)])
  | .acknowledging target =>
    match w.inputs.send? (.delivered target) with
    | none => none
    | some inputs => some ({ w with inputs := inputs, writer := .idle }, [])

/-- The link watch: it takes the host's latest choice, and announces it if it is a change. -/
def stepLink? (w : World) : Option (World × List Entry) :=
  if w.link.announcing then
    match w.inputs.send? (.link w.link.enabled) with
    | none => none
    | some inputs =>
      some ({ w with inputs := inputs, link := { w.link with announcing := false } }, [])
  else
    match w.configured with
    | none => none
    | some choice =>
      if choice = w.link.enabled then some ({ w with configured := none }, [])
      else
        some ({ w with configured := none, link := ⟨choice, true⟩ },
          [.notice (.subscription choice)])

/-- The power watch. -/
def stepPower? (w : World) : Option (World × List Entry) :=
  match w.power.step? w.clock with
  | none => none
  | some (power, notices) =>
    some ({ w with power := power }, notices.map fun n => .notice (.power n))

/-- The task of a button. -/
def stepButton? (w : World) (b : Button) : Option (World × List Entry) :=
  match (w.buttons.get b).step? w.clock (w.low.get b) w.inputs.hasRoom with
  | none => none
  | some (phase, deed) =>
    let w := { w with buttons := w.buttons.set b phase }
    match deed with
    | .nothing => some (w, [])
    | .decide pressed => some (w, [.notice (.button b.key pressed)])
    | .send pressed =>
      (w.inputs.send? (.key b.key pressed)).map fun inputs => ({ w with inputs := inputs }, [])

/-- The next step of a task, unless it has to wait. After a fault every task stands still. -/
def step? (t : Task) (w : World) : Option (World × List Entry) :=
  if w.fault.isSome then none
  else
    match t with
    | .aggregator => w.stepAggregator?
    | .usb => w.stepUsb?
    | .writer => w.stepWriter?
    | .linkWatch => w.stepLink?
    | .power => w.stepPower?
    | .button b => w.stepButton? b

end World

/-! ## From outside -/

/-- What happens to the device from outside. -/
inductive Occurrence
  /-- Time goes on, in milliseconds. -/
  | elapse (ms : Nat)
  /-- An endpoint changes its mode. -/
  | endpoint (e : Endpoint) (mode : EndpointMode)
  /-- A pin goes low or high. -/
  | level (pin : Nat) (low : Bool)
  /-- The host configures the device, or takes that back. -/
  | configured (value : Bool)
  /-- The host suspends or resumes the bus. -/
  | suspended (value : Bool)
  deriving DecidableEq, Repr

/-- The world after an occurrence. Pins without a button have no effect. -/
def World.occur (w : World) : Occurrence → World
  | .elapse ms => { w with clock := w.clock + ms }
  | .endpoint .keyboard mode => { w with keyboardMode := mode }
  | .endpoint .mouse mode => { w with mouseMode := mode }
  | .level pin low =>
    match Button.ofPin? pin with
    | some b => { w with low := w.low.set b low }
    | none => w
  | .configured value => { w with configured := some value }
  | .suspended value => { w with power := w.power.signalSuspended value }

end Peripheral.Firmware
