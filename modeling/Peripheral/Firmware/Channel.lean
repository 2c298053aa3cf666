/-!
# `Peripheral.Firmware.Channel` — bounded queues between tasks

What is sent into a channel comes out in the same order, and nothing is lost on the way: where there
is no room the sender keeps what it wanted to send.
-/

namespace Peripheral.Firmware

/-- A queue with a limited number of places. -/
structure Channel (α : Type) where
  places : Nat
  queued : List α
  deriving DecidableEq, Repr

namespace Channel

variable {α : Type}

/-- A channel in which nothing waits. -/
def empty (places : Nat) : Channel α := ⟨places, []⟩

/-- One more message can be sent. -/
def hasRoom (c : Channel α) : Bool := c.queued.length < c.places

/-- The channel with a message at its end, if there is room for it. -/
def send? (c : Channel α) (a : α) : Option (Channel α) :=
  if c.hasRoom then some { c with queued := c.queued ++ [a] } else none

/-- The oldest message, and the channel without it. -/
def receive? (c : Channel α) : Option (α × Channel α) :=
  match c.queued with
  | [] => none
  | a :: rest => some (a, { c with queued := rest })

theorem queued_send? {c c' : Channel α} {a : α} (h : c.send? a = some c') :
    c'.queued = c.queued ++ [a] := by
  unfold send? at h
  split at h
  · cases h
    rfl
  · cases h

theorem queued_receive? {c c' : Channel α} {a : α} (h : c.receive? = some (a, c')) :
    c.queued = a :: c'.queued := by
  unfold receive? at h
  split at h
  · cases h
  · rename_i hq
    cases h
    exact hq

theorem queued_of_receive?_eq_none {c : Channel α} (h : c.receive? = none) : c.queued = [] := by
  unfold receive? at h
  split at h
  · assumption
  · cases h

theorem places_send? {c c' : Channel α} {a : α} (h : c.send? a = some c') : c'.places = c.places := by
  unfold send? at h
  split at h
  · cases h
    rfl
  · cases h

theorem places_receive? {c c' : Channel α} {a : α} (h : c.receive? = some (a, c')) :
    c'.places = c.places := by
  unfold receive? at h
  split at h
  · cases h
  · cases h
    rfl

/-- A channel in which nothing waits has room, if it has a place at all. -/
theorem send?_ne_none {c : Channel α} (hempty : c.queued = []) (hplaces : 0 < c.places) (a : α) :
    c.send? a ≠ none := by
  simp [send?, hasRoom, hempty, hplaces]

end Channel

end Peripheral.Firmware
