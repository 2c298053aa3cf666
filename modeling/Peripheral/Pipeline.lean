import Peripheral.Report.Rendering
import Peripheral.Target

/-!
# `Peripheral.Pipeline` — reports on their way to the host

The pipeline counts the reports of each target that have been submitted and not acknowledged yet,
and keeps the motion that no report has carried so far. A report that is alone of its kind on the
way is followed by a mouse report, so that the link always has one to sample; the chain ends as soon
as two mouse reports are on the way.

## Contents
- `Pipeline`: reports in flight, and waiting motion.
- `submit`: render a report, with the mouse reports that follow it.
- `acknowledge?`: a report has been delivered.
-/

namespace Peripheral

/-- Reports in flight for each target, and motion that waits for a mouse report. -/
structure Pipeline where
  inFlight : PerTarget UInt32
  motion : Motion
  deriving DecidableEq, Repr

namespace Pipeline

/-- Nothing on the way and nothing moved. -/
def idle : Pipeline := ⟨.same 0, .zero⟩

/-- Count one more report of a target. -/
def launch (p : Pipeline) (t : Target) : Pipeline :=
  { p with inFlight := p.inFlight.set t (Saturating.raise (p.inFlight.get t) 1) }

/-- Render and count one keyboard report. -/
def sendKeyboard (p : Pipeline) (tables : PerTarget HoldTable) :
    Except Fault (Pipeline × Report) := do
  let r ← tables.keyboard.keyboardReport
  return (p.launch .keyboard, .keyboard r)

/-- Render and count one mouse report, which carries all the motion away. -/
def sendMouse (p : Pipeline) (tables : PerTarget HoldTable) :
    Except Fault (Pipeline × Report) := do
  let r ← tables.mouse.mouseReport p.motion
  return ({ p.launch .mouse with motion := .zero }, .mouse r)

/-- A mouse report, and a second one if the first is alone on the way. -/
def submitMouse (p : Pipeline) (tables : PerTarget HoldTable) :
    Except Fault (Pipeline × List Report) := do
  let (p, r) ← p.sendMouse tables
  if p.inFlight.mouse = 1 then
    let (p, s) ← p.sendMouse tables
    return (p, [r, s])
  else
    return (p, [r])

/-- A keyboard report, with mouse reports behind it if it is alone on the way. -/
def submitKeyboard (p : Pipeline) (tables : PerTarget HoldTable) :
    Except Fault (Pipeline × List Report) := do
  let (p, r) ← p.sendKeyboard tables
  if p.inFlight.keyboard = 1 then
    let (p, rs) ← p.submitMouse tables
    return (p, r :: rs)
  else
    return (p, [r])

/-- Submit a report of a target. -/
def submit (p : Pipeline) (tables : PerTarget HoldTable) :
    Target → Except Fault (Pipeline × List Report)
  | .keyboard => p.submitKeyboard tables
  | .mouse => p.submitMouse tables
  | .media => .error .mediaUnsupported

/-- Take a report of a target as delivered, if one is on the way. -/
def acknowledge? (p : Pipeline) (t : Target) : Option Pipeline :=
  if p.inFlight.get t = 0 then none
  else some { p with inFlight := p.inFlight.set t (p.inFlight.get t - 1) }

/-- Forget the reports on the way. -/
def forgetInFlight (p : Pipeline) : Pipeline := { p with inFlight := .same 0 }

/-- Add motion of the pointer. -/
def move (p : Pipeline) (dx dy : Int16) : Pipeline := { p with motion := p.motion.move dx dy }

/-- Add a turn of the wheel. -/
def turn (p : Pipeline) (wheel : Int16) : Pipeline := { p with motion := p.motion.turn wheel }

/-- Forget the motion that waits. -/
def forgetMotion (p : Pipeline) : Pipeline := { p with motion := .zero }

end Pipeline

end Peripheral
