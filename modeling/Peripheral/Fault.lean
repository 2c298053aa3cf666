/-!
# `Peripheral.Fault` — broken promises

A fault is a promise of a caller, or of a table about itself, that turns out broken. Nothing goes on
after a fault; ordinary losses of input are counted instead (`Peripheral.Losses`).
-/

namespace Peripheral

/-- A promise found broken. -/
inductive Fault
  /-- Usage 0 marks a vacant place and cannot be held. -/
  | reservedUsage
  /-- An update has to change something. -/
  | zeroChange
  /-- The place below the tracked usages is taken. -/
  | occupiedPlace
  /-- A table's places are out of order or miscounted. -/
  | disorderedTable
  /-- A mouse usage has no bit in the button bitmap. -/
  | buttonOutOfRange
  /-- A keyboard usage does not fit a report byte. -/
  | keyTooWide
  /-- There is no media report. -/
  | mediaUnsupported
  /-- The ready notice came a second time. -/
  | startedTwice
  deriving DecidableEq, Repr

/-- The wording of a fault. -/
def Fault.message : Fault → String
  | reservedUsage => "usage id 0 is reserved for empty slots"
  | zeroChange => "zero delta brings no change"
  | occupiedPlace => "no vacant place below the tracked usages"
  | disorderedTable => "hold table out of order"
  | buttonOutOfRange => "Mouse button usage out of range"
  | keyTooWide => "Keyboard usage exceeds 8 bits"
  | mediaUnsupported => "Media player reports are not supported"
  | startedTwice => "HID state initialized twice"

/-- What runs in two parts ends well if both parts do. -/
theorem Fault.bind_eq_ok {α β : Type} {x : Except Fault α} {f : α → Except Fault β} {b : β} :
    (x >>= f) = .ok b ↔ ∃ a, x = .ok a ∧ f a = .ok b := by
  cases x with
  | error e => simp [bind, Except.bind]
  | ok a => simp [bind, Except.bind]

end Peripheral
