/-!
# `Peripheral.Target` — the reports a usage can belong to

## Contents
- `Target`: keyboard, mouse or media report.
- `PerTarget`: one value for each target, read with `get` and replaced with `set`.
-/

namespace Peripheral

/-- The report a usage belongs to. -/
inductive Target
  | keyboard
  | mouse
  | media
  deriving DecidableEq, Repr

namespace Target

/-- Every target, in index order. -/
def all : List Target := [keyboard, mouse, media]

/-- Place of the target in tables that hold one entry for each. -/
def index : Target → Nat
  | keyboard => 0
  | mouse => 1
  | media => 2

/-- Name of the target in log lines. -/
def label : Target → String
  | keyboard => "Keyboard"
  | mouse => "Mouse"
  | media => "MediaPlayer"

end Target

/-- One value for each target. -/
structure PerTarget (α : Type) where
  keyboard : α
  mouse : α
  media : α
  deriving DecidableEq, Repr

namespace PerTarget

variable {α β : Type}

/-- The same value for every target. -/
def same (a : α) : PerTarget α := ⟨a, a, a⟩

/-- The value of one target. -/
def get (p : PerTarget α) : Target → α
  | .keyboard => p.keyboard
  | .mouse => p.mouse
  | .media => p.media

/-- Replace the value of one target. -/
def set (p : PerTarget α) (t : Target) (a : α) : PerTarget α :=
  match t with
  | .keyboard => { p with keyboard := a }
  | .mouse => { p with mouse := a }
  | .media => { p with media := a }

/-- Apply a function to every value. -/
def map (f : α → β) (p : PerTarget α) : PerTarget β :=
  ⟨f p.keyboard, f p.mouse, f p.media⟩

@[simp] theorem get_same (a : α) (t : Target) : (same a).get t = a := by
  cases t <;> rfl

@[simp] theorem get_set_self (p : PerTarget α) (t : Target) (a : α) : (p.set t a).get t = a := by
  cases t <;> rfl

theorem get_set_ne (p : PerTarget α) {t u : Target} (a : α) (h : u ≠ t) :
    (p.set t a).get u = p.get u := by
  cases t <;> cases u <;> first | rfl | exact absurd rfl h

@[simp] theorem get_map (f : α → β) (p : PerTarget α) (t : Target) :
    (p.map f).get t = f (p.get t) := by
  cases t <;> rfl

end PerTarget

end Peripheral
