import Peripheral.Saturating

/-!
# `Peripheral.Losses` — input that did not reach the host, by cause

Every counter stays at its greatest value once it is there.
-/

namespace Peripheral

/-- Counters of lost input. -/
structure Losses where
  /-- Stale updates dropped from the backlog. -/
  purged : UInt32
  /-- Presses for which a table had no place. -/
  tableFull : UInt32
  /-- Times at which backlog and tables were given up as a whole. -/
  resets : UInt32
  /-- Updates that a backlog could not store. -/
  refused : UInt32
  /-- Events of keys without a binding. -/
  unbound : UInt32
  deriving DecidableEq, Repr

namespace Losses

/-- Nothing lost. -/
def none : Losses := ⟨0, 0, 0, 0, 0⟩

/-- Count updates dropped as stale. -/
def addPurged (l : Losses) (n : Nat) : Losses := { l with purged := Saturating.raise l.purged n }

/-- Count a press for which a table had no place. -/
def addTableFull (l : Losses) : Losses := { l with tableFull := Saturating.raise l.tableFull 1 }

/-- Count a reset of backlog and tables. -/
def addReset (l : Losses) : Losses := { l with resets := Saturating.raise l.resets 1 }

/-- Count an update that could not be stored. -/
def addRefused (l : Losses) : Losses := { l with refused := Saturating.raise l.refused 1 }

/-- Count an event of a key without a binding. -/
def addUnbound (l : Losses) : Losses := { l with unbound := Saturating.raise l.unbound 1 }

/-- All lost input. A reset is no input, so resets do not count. -/
def total (l : Losses) : UInt32 :=
  Saturating.raise l.purged (l.tableFull.toNat + l.refused.toNat + l.unbound.toNat)

end Losses

end Peripheral
