import Peripheral.Backlog
import Peripheral.Layout
import Peripheral.Losses
import Peripheral.Pipeline

/-!
# `Peripheral.Aggregator` — from key, motion and link events to reports

The aggregator is the heart of the device. It turns a stream of inputs into reports, one picture at
a time: a change is applied and reported at once while the link is idle, and waits in the backlog
while a report is under way or no host listens. Each acknowledgement lets it go on with what waits.

## Contents
- `Input`, `Output`, `Phase`, `Aggregator`: what goes in and out, and the state between.
- `report`, `apply`, `drain`: the moves that the inputs share.
- `step`: one input at its time of arrival.
-/

namespace Peripheral

/-- What the aggregator hears. -/
inductive Input
  /-- A hardware key went down or up. -/
  | key (key : UInt16) (pressed : Bool)
  /-- The pointer moved. -/
  | motion (dx dy : Int16)
  /-- The wheel turned. -/
  | wheel (amount : Int16)
  /-- A report was delivered. -/
  | delivered (target : Target)
  /-- A host started or stopped listening. -/
  | link (up : Bool)
  /-- The device is ready. -/
  | ready
  deriving DecidableEq, Repr

/-- What the aggregator says. -/
inductive Output
  /-- A report for the host. -/
  | report (r : Report)
  /-- The device is in use. -/
  | activity
  deriving DecidableEq, Repr

/-- Whether a host listens, and whether it waits for a report. -/
inductive Phase
  | disconnected
  | idle
  | busy
  deriving DecidableEq, Repr

/-- State of the aggregator. -/
structure Aggregator where
  layout : Layout
  tables : PerTarget HoldTable
  backlog : Backlog
  phase : Phase
  pipeline : Pipeline
  losses : Losses
  started : Bool
  deriving Repr

namespace Aggregator

/-- Tables without a hold. -/
def vacantTables : PerTarget HoldTable := .same (HoldTable.empty Limits.tablePlaces)

/-- A new aggregator, to which no host listens. Waiting updates are stale after `window`
    milliseconds. -/
def create (layout : Layout) (window : UInt32) : Aggregator where
  layout := layout
  tables := vacantTables
  backlog := Backlog.empty Limits.backlogPlaces window
  phase := .disconnected
  pipeline := Pipeline.idle
  losses := Losses.none
  started := false

/-! ## Moves -/

/-- Submit a report of a target. The link is busy from then on. -/
def report (a : Aggregator) (t : Target) : Except Fault (Aggregator × List Output) := do
  let (pipeline, reports) ← a.pipeline.submit a.tables t
  return ({ a with pipeline := pipeline, phase := .busy }, reports.map Output.report)

/-- Apply an update to its table, and tell whether a report is due. -/
def apply (a : Aggregator) (t : Target) (usage : UInt16) (change : Int16) :
    Except Fault (Aggregator × Bool) := do
  let (table, effect) ← (a.tables.get t).update usage change
  let a := { a with tables := a.tables.set t table }
  match effect with
  | .changed => return (a, true)
  | .unheld => return (a, false)
  | .noRoom => return ({ a with losses := a.losses.addTableFull }, false)

/-- Apply waiting updates until one makes a report due, and submit it. With none left the link is
    idle, but motion that waits is reported still. -/
def drainFrom (a : Aggregator) : List Pending → Except Fault (Aggregator × List Output)
  | [] =>
    let a := { a with backlog := a.backlog.clear, phase := .idle }
    if a.pipeline.motion.isPending then a.report .mouse else return (a, [])
  | e :: rest => do
    let (a, due) ← { a with backlog := { a.backlog with pending := rest } }.apply
      e.target e.usage e.change
    if due then a.report e.target else a.drainFrom rest

/-- Go on with the updates that wait. -/
def drain (a : Aggregator) : Except Fault (Aggregator × List Output) :=
  a.drainFrom a.backlog.pending

/-- Apply an update and report it. -/
def applyNow (a : Aggregator) (e : Pending) : Except Fault (Aggregator × List Output) := do
  let (a, due) ← a.apply e.target e.usage e.change
  if due then a.report e.target else return (a, [])

/-- Put an update into the backlog. While no host listens, updates age to make room for it. If the
    backlog had to be given up, so are the tables, which the lost releases would have cleared. -/
def defer (a : Aggregator) (e : Pending) : Aggregator :=
  let (backlog, receipt) := a.backlog.store e (a.phase = .disconnected)
  let losses := a.losses.addPurged receipt.purged
  let losses := if receipt.reset then losses.addReset else losses
  let losses := if receipt.stored then losses else losses.addRefused
  { a with
    backlog := backlog
    tables := if receipt.reset then a.tables.map HoldTable.clear else a.tables
    losses := losses }

/-- Apply an update at once if the link is idle, and put it into the backlog otherwise. -/
def update (a : Aggregator) (e : Pending) : Except Fault (Aggregator × List Output) :=
  match a.phase with
  | .idle => a.applyNow e
  | .disconnected | .busy => return (a.defer e, [])

/-- Report motion at once if the link is idle. Otherwise it waits for the next mouse report. -/
def reportMotion (a : Aggregator) : Except Fault (Aggregator × List Output) :=
  match a.phase with
  | .idle => a.report .mouse
  | .disconnected | .busy => return (a, [])

/-! ## Inputs -/

/-- A host starts to listen: motion from before is forgotten, stale updates are dropped, and the
    rest is replayed. -/
def connect (a : Aggregator) (now : UInt32) : Except Fault (Aggregator × List Output) :=
  if a.phase = .disconnected then
    { a with
      pipeline := a.pipeline.forgetMotion
      backlog := a.backlog.purge now
      losses := a.losses.addPurged (a.backlog.purgeable now) }.drain
  else
    return (a, [])

/-- The host stops to listen: all that belongs to its session is forgotten. -/
def disconnect (a : Aggregator) : Aggregator :=
  if a.phase = .disconnected then a
  else
    { a with
      phase := .disconnected
      tables := a.tables.map HoldTable.clear
      backlog := a.backlog.clear
      pipeline := a.pipeline.forgetInFlight }

/-- Go on with the updates that wait if a host listens. -/
def resume (a : Aggregator) : Except Fault (Aggregator × List Output) :=
  if a.phase = .disconnected then return (a, []) else a.drain

/-- A report of a target was delivered: the aggregator goes on, and then counts it. News of a report
    that is not on the way is ignored. -/
def delivered (a : Aggregator) (t : Target) : Except Fault (Aggregator × List Output) :=
  if a.pipeline.inFlight.get t = 0 then return (a, [])
  else do
    -- The report counts as on the way while the next one is rendered.
    let (a, out) ← a.resume
    return ({ a with pipeline := (a.pipeline.acknowledge? t).getD a.pipeline }, out)

/-- The device is ready, which happens once. What waited before is dropped. -/
def start (a : Aggregator) : Except Fault Aggregator :=
  if a.started then .error .startedTwice
  else return { a with started := true, backlog := a.backlog.clear }

/-- A key event: an update of the usage it is bound to. -/
def key (a : Aggregator) (key : UInt16) (pressed : Bool) (now : UInt32) :
    Except Fault (Aggregator × List Output) :=
  match a.layout.lookup key with
  | none => return ({ a with losses := a.losses.addUnbound }, [])
  | some b => do
    let (a, out) ← a.update ⟨b.target, b.usage, if pressed then 1 else -1, now⟩
    return (a, out ++ [.activity])

/-- Handle one input at its time of arrival. -/
def step (a : Aggregator) (input : Input) (now : UInt32) :
    Except Fault (Aggregator × List Output) :=
  match input with
  | .key key pressed => a.key key pressed now
  | .motion dx dy => do
    let (a, out) ← { a with pipeline := a.pipeline.move dx dy }.reportMotion
    return (a, out ++ [.activity])
  | .wheel amount => do
    let (a, out) ← { a with pipeline := a.pipeline.turn amount }.reportMotion
    return (a, out ++ [.activity])
  | .delivered t => a.delivered t
  | .link true => a.connect now
  | .link false => return (a.disconnect, [])
  | .ready => do
    let a ← a.start
    return (a, [])

end Aggregator

end Peripheral
