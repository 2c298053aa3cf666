import Peripheral.Limits

/-!
# `Peripheral.Power.Monitor` — when the device may save power

The device is active while it is used. After a minute without activity it idles, and after two it
goes to low power unless a host listens. A suspended bus calls for low power at once.

Times are milliseconds of a clock that never goes back.

## Contents
- `PowerMode`, `PowerNotice`: the modes, and what the monitor logs.
- `PowerMonitor`: the data, with `activity`, `setSubscribed`, `setSuspended` and `tick`.
-/

namespace Peripheral

/-- How much power the device may draw. -/
inductive PowerMode
  | active
  | idle
  | lowPower
  deriving DecidableEq, Repr

/-- Name of a mode in log lines. -/
def PowerMode.label : PowerMode → String
  | active => "Active"
  | idle => "Idle"
  | lowPower => "LowPower"

/-- What the monitor logs. -/
inductive PowerNotice
  /-- Activity woke the device from a mode. -/
  | waking (mode : PowerMode)
  /-- The bus was suspended or resumed. -/
  | suspension (suspended : Bool)
  /-- A tick changed the mode. -/
  | change (old new : PowerMode)
  deriving DecidableEq, Repr

/-- The line that is logged. -/
def PowerNotice.text : PowerNotice → String
  | waking mode => "Power: waking from " ++ mode.label
  | suspension suspended => "Power: usb_suspended=" ++ if suspended then "true" else "false"
  | change old new => "Power: " ++ old.label ++ " -> " ++ new.label

/-- State of the power monitor. -/
structure PowerMonitor where
  mode : PowerMode
  /-- Time of the latest activity. -/
  lastActivity : Nat
  /-- A host listens. -/
  subscribed : Bool
  /-- The bus is suspended. -/
  suspended : Bool
  deriving DecidableEq, Repr

namespace PowerMonitor

/-- A monitor created at `clock`: active, without a host. -/
def create (clock : Nat) : PowerMonitor := ⟨.active, clock, false, false⟩

/-- Whole seconds since the latest activity. -/
def quietSeconds (m : PowerMonitor) (clock : Nat) : Nat := (clock - m.lastActivity) / 1000

/-- The mode that the time and the bus call for. -/
def dueMode (m : PowerMonitor) (clock : Nat) : PowerMode :=
  if m.suspended ∨ (2 * Limits.idleSeconds < m.quietSeconds clock ∧ m.subscribed = false) then
    .lowPower
  else if Limits.idleSeconds < m.quietSeconds clock then .idle
  else .active

/-- The device is used: it is active again. -/
def activity (m : PowerMonitor) (clock : Nat) : PowerMonitor × List PowerNotice :=
  ({ m with mode := .active, lastActivity := clock },
    if m.mode = .active then [] else [.waking m.mode])

/-- Look at the time and go to the mode that it calls for. -/
def tick (m : PowerMonitor) (clock : Nat) : PowerMonitor × List PowerNotice :=
  ({ m with mode := m.dueMode clock },
    if m.dueMode clock = m.mode then [] else [.change m.mode (m.dueMode clock)])

/-- A host starts to listen, which is activity, or stops. -/
def setSubscribed (m : PowerMonitor) (subscribed : Bool) (clock : Nat) :
    PowerMonitor × List PowerNotice :=
  if subscribed then { m with subscribed := true }.activity clock
  else ({ m with subscribed := false }, [])

/-- The bus is suspended, or resumed, which is activity. News that is none changes nothing. -/
def setSuspended (m : PowerMonitor) (suspended : Bool) (clock : Nat) :
    PowerMonitor × List PowerNotice :=
  if m.suspended = suspended then (m, [])
  else
    let m := { m with suspended := suspended }
    let (m, notices) := if suspended then m.tick clock else m.activity clock
    (m, .suspension suspended :: notices)

end PowerMonitor

end Peripheral
