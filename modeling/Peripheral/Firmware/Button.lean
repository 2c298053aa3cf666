import Peripheral.Limits

/-!
# `Peripheral.Firmware.Button` — reading a button that bounces

A button pulls its pin low. A press begins with a high level followed by a low one, and counts if
the pin is low again once the debounce time is over; the release that follows begins with a high
level and counts after the debounce time. Only the level at the time of looking matters.

## Contents
- `ButtonPhase`: where the reading of a button stands.
- `ButtonDeed`, `ButtonPhase.step?`: one step, and what it does besides.
- `ButtonPhase.Reads`, `reads_of_step?`: all that a step can be.
-/

namespace Peripheral.Firmware

/-- Where the reading of a button stands. -/
inductive ButtonPhase
  /-- Waits for a high level. -/
  | resting
  /-- Waits for a low level. -/
  | armed
  /-- Waits until the press has settled. -/
  | pressing (due : Nat)
  /-- Waits for room to send the press. -/
  | pressed
  /-- Waits for a high level after the press. -/
  | held
  /-- Waits until the release has settled. -/
  | releasing (due : Nat)
  /-- Waits for room to send the release. -/
  | released
  deriving DecidableEq, Repr

/-- What a step does besides changing the phase. -/
inductive ButtonDeed
  /-- Nothing. -/
  | nothing
  /-- It takes the button to be down or up, and logs that. -/
  | decide (pressed : Bool)
  /-- It sends the event. -/
  | send (pressed : Bool)
  deriving DecidableEq, Repr

namespace ButtonPhase

/-- The next step of a button's reading at `clock`, with the pin at a low level or not and room for
    an event or not. -/
def step? (clock : Nat) (low room : Bool) : ButtonPhase → Option (ButtonPhase × ButtonDeed)
  | resting => if low then none else some (armed, .nothing)
  | armed => if low then some (pressing (clock + Limits.debounce), .nothing) else none
  | pressing due =>
    if clock < due then none
    else if low then some (pressed, .decide true)
    else some (resting, .nothing)
  | pressed => if room then some (held, .send true) else none
  | held => if low then none else some (releasing (clock + Limits.debounce), .nothing)
  | releasing due => if clock < due then none else some (released, .decide false)
  | released => if room then some (resting, .send false) else none

variable {clock : Nat} {low room : Bool} {phase next : ButtonPhase} {deed : ButtonDeed}

/-- **What a step can do** at `clock`, with the pin at a low level or not. -/
inductive Reads (clock : Nat) (low : Bool) : ButtonPhase → ButtonPhase → ButtonDeed → Prop
  /-- The level is high before a press. -/
  | rise (hlow : low = false) : Reads clock low .resting .armed .nothing
  /-- The level falls. -/
  | fall (hlow : low = true) : Reads clock low .armed (.pressing (clock + Limits.debounce)) .nothing
  /-- The level has settled. -/
  | confirm {due : Nat} (hdue : due ≤ clock) (hlow : low = true) :
      Reads clock low (.pressing due) .pressed (.decide true)
  /-- The level has not settled. -/
  | reject {due : Nat} (hdue : due ≤ clock) (hlow : low = false) :
      Reads clock low (.pressing due) .resting .nothing
  /-- The press is sent. -/
  | press : Reads clock low .pressed .held (.send true)
  /-- The level is high after a press. -/
  | leave (hlow : low = false) : Reads clock low .held (.releasing (clock + Limits.debounce)) .nothing
  /-- The time to settle is over. -/
  | settle {due : Nat} (hdue : due ≤ clock) : Reads clock low (.releasing due) .released (.decide false)
  /-- The release is sent. -/
  | release : Reads clock low .released .resting (.send false)

theorem reads_of_step? (h : phase.step? clock low room = some (next, deed)) :
    Reads clock low phase next deed := by
  cases phase with
  | resting =>
    simp only [step?] at h
    split at h <;> cases h
    exact .rise (by simpa using ‹¬ low = true›)
  | armed =>
    simp only [step?] at h
    split at h <;> cases h
    exact .fall ‹_›
  | pressing due =>
    simp only [step?] at h
    split at h
    · cases h
    · rename_i hdue
      split at h <;> cases h
      · exact .confirm (Nat.le_of_not_lt hdue) ‹_›
      · exact .reject (Nat.le_of_not_lt hdue) (by simpa using ‹¬ low = true›)
  | pressed =>
    simp only [step?] at h
    split at h <;> cases h
    exact .press
  | held =>
    simp only [step?] at h
    split at h <;> cases h
    exact .leave (by simpa using ‹¬ low = true›)
  | releasing due =>
    simp only [step?] at h
    split at h <;> cases h
    exact .settle (Nat.le_of_not_lt ‹_›)
  | released =>
    simp only [step?] at h
    split at h <;> cases h
    exact .release

/-- Nothing is sent without room. -/
theorem room_of_send {pressed : Bool} (h : phase.step? clock low room = some (next, .send pressed)) :
    room = true := by
  cases phase <;> simp only [step?] at h <;> grind

end ButtonPhase

/-! ## The buttons of the board -/

/-- A button of the board. -/
inductive Button
  | first
  | second
  | third
  | fourth
  deriving DecidableEq, Repr

/-- The pin of a button. -/
def Button.pin : Button → Nat
  | first => 11
  | second => 12
  | third => 24
  | fourth => 25

/-- The key that a button stands for. -/
def Button.key : Button → UInt16
  | first => 1
  | second => 2
  | third => 4
  | fourth => 5

/-- No two buttons stand for one key. -/
theorem Button.eq_of_key_eq {b c : Button} (h : b.key = c.key) : b = c := by
  revert h
  cases b <;> cases c <;> decide

/-- The buttons, in the order of their tasks. -/
def Button.all : List Button := [first, second, third, fourth]

/-- The button at a pin. -/
def Button.ofPin? (pin : Nat) : Option Button := Button.all.find? fun b => b.pin = pin

/-- One value for each button. -/
structure PerButton (α : Type) where
  first : α
  second : α
  third : α
  fourth : α
  deriving DecidableEq, Repr

namespace PerButton

variable {α : Type}

/-- The same value for every button. -/
def same (a : α) : PerButton α := ⟨a, a, a, a⟩

/-- The value of one button. -/
def get (p : PerButton α) : Button → α
  | .first => p.first
  | .second => p.second
  | .third => p.third
  | .fourth => p.fourth

/-- Replace the value of one button. -/
def set (p : PerButton α) (b : Button) (a : α) : PerButton α :=
  match b with
  | .first => { p with first := a }
  | .second => { p with second := a }
  | .third => { p with third := a }
  | .fourth => { p with fourth := a }

@[simp] theorem get_set_self (p : PerButton α) (b : Button) (a : α) : (p.set b a).get b = a := by
  cases b <;> rfl

theorem get_set_ne (p : PerButton α) {b c : Button} (a : α) (h : c ≠ b) :
    (p.set b a).get c = p.get c := by
  cases b <;> cases c <;> first | rfl | exact absurd rfl h

end PerButton

end Peripheral.Firmware
