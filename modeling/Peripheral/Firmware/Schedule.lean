import Peripheral.Firmware.World

/-!
# `Peripheral.Firmware.Schedule` — the order in which the tasks run

The tasks are looked at in a fixed order, round after round, and each runs until it has to wait.
When none can go on the device is at rest until something happens from outside.

## Contents
- `World.load`: how much there is to do at most.
- `World.poll`, `World.round?`, `World.settle`: one task, one round, and all rounds until rest.
- `World.boot`, `World.react`: power on, and the answer to occurrences.
-/

namespace Peripheral.Firmware

/-! ## How much there is to do -/

/-- Steps that a message in the input channel can cause. A key can end up in the backlog, and from
    there cause three reports of four steps each. -/
def inputLoad : Input → Nat
  | .key _ _ => 16
  | .motion _ _ => 12
  | .wheel _ => 12
  | .delivered _ => 1
  | .link _ => 3
  | .ready => 1

/-- Steps that the messages in the input channel can cause. -/
def inputsLoad : List Input → Nat
  | [] => 0
  | i :: rest => inputLoad i + inputsLoad rest

/-- Steps that the writer owes, the acknowledgement of its report included. -/
def Writer.load : Writer → Nat
  | unstarted => 1
  | idle => 0
  | writing _ => 3
  | acknowledging _ => 2

/-- Steps that a button can still cause at `clock`. -/
def ButtonPhase.load (clock : Nat) : ButtonPhase → Nat
  | resting => 2
  | armed => 1
  | pressing due => if clock < due then 0 else 20
  | pressed => 18
  | held => 1
  | releasing due => if clock < due then 0 else 22
  | released => 20

/-- Steps that the buttons can still cause. -/
def buttonsLoad (clock : Nat) (buttons : PerButton ButtonPhase) : Nat :=
  buttons.first.load clock + buttons.second.load clock + buttons.third.load clock
    + buttons.fourth.load clock

namespace World

/-- Steps that the aggregator's state can cause: three reports for each update that waits, and two
    for motion that waits. -/
def aggregatorLoad (a : Aggregator) : Nat :=
  13 * a.backlog.size + (if a.pipeline.motion.isPending then 9 else 0)
    + (if a.started then 0 else 1)

/-- A bound on the steps that the tasks can take before all of them have to wait. -/
def load (w : World) : Nat :=
  inputsLoad w.inputs.queued + 4 * w.reports.queued.length + w.writer.load
    + aggregatorLoad w.aggregator
    + (if w.usbRunning then 0 else 1)
    + (if w.link.announcing then 4 else 0) + (if w.configured.isSome then 5 else 0)
    + w.power.load w.clock
    + buttonsLoad w.clock w.buttons

/-! ## Rounds -/

/-- Let a task run until it has to wait. -/
def poll (t : Task) (w : World) : World × List Entry :=
  Stepping.exhaust (step? t) w.load w

/-- Let tasks run, one after the other. -/
def pollAll : List Task → World → World × List Entry
  | [], w => (w, [])
  | t :: rest, w =>
    let (w, entries) := w.poll t
    let (w, later) := pollAll rest w
    (w, entries ++ later)

/-- Every task has to wait. -/
def atRest (w : World) : Bool := Task.all.all fun t => (w.step? t).isNone

/-- One round, unless every task has to wait. -/
def round? (w : World) : Option (World × List Entry) :=
  if w.atRest then none else some (pollAll Task.all w)

/-- Rounds until every task has to wait. -/
def settle (w : World) : World × List Entry :=
  Stepping.exhaust round? w.load w

/-! ## Runs -/

/-- Let occurrences happen in the same moment, one after the other. -/
def occurAll (w : World) (os : List Occurrence) : World := os.foldl occur w

/-- Let occurrences happen, and then let the tasks run. -/
def react (w : World) (os : List Occurrence) : World × List Entry := (w.occurAll os).settle

/-- What is logged before the tasks run. -/
def bootEntries : List Entry :=
  [.starting, .layoutLoaded Layout.standard.size, .usbReady, .allStarted].map Entry.notice

/-- Power comes on with some pins held low. -/
def boot (held : List Nat) : World × List Entry :=
  let (w, entries) := initial.react (held.map fun pin => .level pin true)
  (w, bootEntries ++ entries)

end World

end Peripheral.Firmware
