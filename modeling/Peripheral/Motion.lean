import Peripheral.Saturating

/-!
# `Peripheral.Motion` — pointer and wheel motion that waits for a mouse report

Motion adds up until a mouse report carries it away. The sums are wider than a report's fields, and
stop at the ends of their range.
-/

namespace Peripheral

/-- Sums of pointer and wheel motion since the last mouse report. -/
structure Motion where
  dx : Int32
  dy : Int32
  wheel : Int32
  deriving DecidableEq, Repr

namespace Motion

/-- No motion. -/
def zero : Motion := ⟨0, 0, 0⟩

/-- Add motion of the pointer. -/
def move (m : Motion) (dx dy : Int16) : Motion :=
  { m with dx := Saturating.accumulate m.dx dx, dy := Saturating.accumulate m.dy dy }

/-- Add a turn of the wheel. -/
def turn (m : Motion) (wheel : Int16) : Motion :=
  { m with wheel := Saturating.accumulate m.wheel wheel }

/-- Some motion waits. -/
def isPending (m : Motion) : Bool := m.dx ≠ 0 || m.dy ≠ 0 || m.wheel ≠ 0

@[simp] theorem isPending_eq_false {m : Motion} : m.isPending = false ↔ m = zero := by
  cases m
  simp [isPending, zero, and_assoc]

end Motion

end Peripheral
