import Peripheral.Target
import Peripheral.Limits

/-!
# `Peripheral.Report` — what the host is told

A report is a whole picture of its target: the keys that are down, or the buttons that are down and
the motion since the last mouse report.

## Contents
- `KeyboardReport`, `MouseReport`, `Report`.
- `isBlank`: the report tells of nothing held and nothing moved.
-/

namespace Peripheral

/-- The keys that are down: at most six, the rest of the places being 0. -/
structure KeyboardReport where
  modifier : UInt8
  reserved : UInt8
  keys : List UInt8
  keys_length : keys.length = Limits.keysPerReport
  deriving DecidableEq, Repr

/-- The buttons that are down, one bit each, and the motion of pointer and wheel. -/
structure MouseReport where
  buttons : UInt8
  x : Int16
  y : Int16
  wheel : Int16
  deriving DecidableEq, Repr

/-- A report to the host. -/
inductive Report
  | keyboard (r : KeyboardReport)
  | mouse (r : MouseReport)
  deriving DecidableEq, Repr

/-- A keyboard report that lists the first six of `keys` and fills the places left with 0. -/
def KeyboardReport.ofKeys (keys : List UInt8) : KeyboardReport where
  modifier := 0
  reserved := 0
  keys := (keys ++ List.replicate Limits.keysPerReport 0).take Limits.keysPerReport
  keys_length := by simp

/-- No key and no modifier is down. The reserved byte tells nothing. -/
def KeyboardReport.isBlank (r : KeyboardReport) : Bool :=
  r.modifier = 0 && r.keys.all fun k => k = 0

/-- No button is down and nothing moves. -/
def MouseReport.isBlank (r : MouseReport) : Bool :=
  r.buttons = 0 && r.x = 0 && r.y = 0 && r.wheel = 0

namespace Report

/-- The report's target. -/
def target : Report → Target
  | keyboard _ => .keyboard
  | mouse _ => .mouse

/-- The report tells of nothing held and nothing moved. -/
def isBlank : Report → Bool
  | keyboard r => r.isBlank
  | mouse r => r.isBlank

end Report

end Peripheral
