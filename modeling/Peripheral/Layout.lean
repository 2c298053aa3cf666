import Peripheral.Bisection
import Peripheral.Target
import Peripheral.Limits

/-!
# `Peripheral.Layout` — which usage each hardware key produces

A board describes its keys by a list of bindings in ascending key order. The list is checked once,
when the layout is made; after that a key is looked up by halving, and everything the layout answers
can be shown in its report.

## Contents
- `Binding`, `Usable`: one key, and when its usage has a place in its report.
- `LayoutError`, `firstError?`: why a list of bindings is refused.
- `Layout`, `Layout.ofBindings`, `Layout.lookup`.
- `Layout.standard`: the layout of the board.
-/

namespace Peripheral

/-- One hardware key, the usage it produces and the report the usage belongs to. -/
structure Binding where
  key : UInt16
  usage : UInt16
  target : Target
  deriving DecidableEq, Repr

/-- The usages that have a place in their report: a byte other than 0 for the keyboard, a bit of the
    bitmap for the mouse. There is no media report. -/
def Renderable (t : Target) (usage : UInt16) : Prop :=
  match t with
  | .keyboard => 1 ≤ usage.toNat ∧ usage.toNat ≤ 255
  | .mouse => 1 ≤ usage.toNat ∧ usage.toNat ≤ Limits.mouseButtons
  | .media => False

instance (t : Target) (usage : UInt16) : Decidable (Renderable t usage) := by
  unfold Renderable
  cases t <;> infer_instance

/-! ## Checking a list of bindings -/

/-- Why a list of bindings is refused. -/
inductive LayoutError
  /-- The key at `index` does not follow the one before it. -/
  | unsorted (index : Nat)
  /-- The binding of `key` is for a report that does not exist. -/
  | unsupportedTarget (key : UInt16)
  /-- The usage has no place in its report. -/
  | unusableUsage (key usage : UInt16)
  deriving DecidableEq, Repr

/-- The wording of a refusal. -/
def LayoutError.message : LayoutError → String
  | unsorted index => "UnsortedKeymap \x7b index: " ++ toString index ++ " \x7d"
  | unsupportedTarget key => "UnsupportedTarget \x7b key_id: " ++ toString key.toNat ++ " \x7d"
  | unusableUsage key usage =>
    "InvalidUsage \x7b key_id: " ++ toString key.toNat ++ ", usage_id: " ++ toString usage.toNat
      ++ " \x7d"

namespace Layout

/-- The first position, counted from `index`, whose key is not above the key before it. -/
def firstUnsorted? (index : Nat) : List Binding → Option Nat
  | a :: b :: rest => if a.key < b.key then firstUnsorted? (index + 1) (b :: rest) else some index
  | _ => none

/-- What is wrong with a single binding. -/
def bindingError? (b : Binding) : Option LayoutError :=
  if b.target = .media then some (.unsupportedTarget b.key)
  else if Renderable b.target b.usage then none
  else some (.unusableUsage b.key b.usage)

/-- The refusal of a list of bindings: the order of the keys goes before the single bindings, and
    among these the first one at fault is named. -/
def firstError? (bindings : List Binding) : Option LayoutError :=
  match firstUnsorted? 1 bindings with
  | some index => some (.unsorted index)
  | none => bindings.findSome? bindingError?

end Layout

/-- A list of bindings that has been checked. -/
structure Layout where
  bindings : List Binding
  accepted : Layout.firstError? bindings = none
  deriving Repr

namespace Layout

/-- Check a list of bindings. -/
def ofBindings (bindings : List Binding) : Except LayoutError Layout :=
  match h : firstError? bindings with
  | some e => .error e
  | none => .ok ⟨bindings, h⟩

/-- The binding of a key, if it has one. -/
def lookup (l : Layout) (key : UInt16) : Option Binding :=
  (Bisection.position? Binding.key key l.bindings).bind fun p => l.bindings[p]?

/-- Number of bound keys. -/
def size (l : Layout) : Nat := l.bindings.length

/-- No key is bound. -/
def isEmpty (l : Layout) : Bool := l.bindings.isEmpty

/-- The layout of the board: three mouse buttons, then keys. -/
def standard : Layout where
  bindings := [
    ⟨1, 1, .mouse⟩, ⟨2, 2, .mouse⟩, ⟨3, 3, .mouse⟩,
    ⟨4, 4, .keyboard⟩, ⟨5, 5, .keyboard⟩, ⟨6, 6, .keyboard⟩,
    ⟨7, 0x28, .keyboard⟩, ⟨8, 0x2C, .keyboard⟩]
  accepted := by decide

end Layout

end Peripheral
