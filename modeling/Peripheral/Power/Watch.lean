import Peripheral.Power.Monitor
import Peripheral.Stepping

/-!
# `Peripheral.Power.Watch` — the task that keeps the power monitor up to date

The watch waits for three signals and for the next tick. A signal keeps only its latest value until
it is taken. Whenever the watch is looked at it takes everything that is there, activity first, then
the subscription, then the suspension, then the ticks that are due, late ones included.

## Contents
- `PowerWatch`: the monitor, its signals and the time of the next tick.
- `PowerWatch.step?`: the next thing to be taken.
- `PowerWatch.Takes`, `takes_of_step?`, `quiet_of_step?_eq_none`: all that a step can take.
- `PowerWatch.poll`: all there is to be taken; `step?_poll` says that nothing is left.
-/

namespace Peripheral

/-- The monitor, the values signalled and not taken yet, and the time of the next tick. -/
structure PowerWatch where
  monitor : PowerMonitor
  activity : Bool
  subscribed : Option Bool
  suspended : Option Bool
  nextTick : Nat
  deriving DecidableEq, Repr

namespace PowerWatch

/-- A watch started at `clock`. -/
def create (clock : Nat) : PowerWatch where
  monitor := PowerMonitor.create clock
  activity := false
  subscribed := none
  suspended := none
  nextTick := clock + Limits.tick

/-! ## Signals -/

/-- Signal that the device is used. -/
def signalActivity (p : PowerWatch) : PowerWatch := { p with activity := true }

/-- Signal whether a host listens. -/
def signalSubscribed (p : PowerWatch) (value : Bool) : PowerWatch :=
  { p with subscribed := some value }

/-- Signal whether the bus is suspended. -/
def signalSuspended (p : PowerWatch) (value : Bool) : PowerWatch :=
  { p with suspended := some value }

/-! ## Steps -/

/-- Take the first thing that is there. A tick that is late does not delay the next one. -/
def step? (clock : Nat) (p : PowerWatch) : Option (PowerWatch × List PowerNotice) :=
  if p.activity then
    let (m, notices) := p.monitor.activity clock
    some ({ p with monitor := m, activity := false }, notices)
  else if let some value := p.subscribed then
    let (m, notices) := p.monitor.setSubscribed value clock
    some ({ p with monitor := m, subscribed := none }, notices)
  else if let some value := p.suspended then
    let (m, notices) := p.monitor.setSuspended value clock
    some ({ p with monitor := m, suspended := none }, notices)
  else if p.nextTick ≤ clock then
    let (m, notices) := p.monitor.tick clock
    some ({ p with monitor := m, nextTick := p.nextTick + Limits.tick }, notices)
  else
    none

variable {clock : Nat} {p q : PowerWatch}

/-- No signal waits to be taken. -/
structure Quiet (p : PowerWatch) : Prop where
  activity : p.activity = false
  subscribed : p.subscribed = none
  suspended : p.suspended = none

/-- **What a step takes**: the first signal that waits, or a tick that is due if none does. -/
inductive Takes (clock : Nat) (p : PowerWatch) : PowerWatch → Prop
  | activity (hgiven : p.activity = true) :
      Takes clock p { p with monitor := (p.monitor.activity clock).1, activity := false }
  | subscribed {value : Bool} (hactivity : p.activity = false) (hgiven : p.subscribed = some value) :
      Takes clock p { p with monitor := (p.monitor.setSubscribed value clock).1, subscribed := none }
  | suspended {value : Bool} (hactivity : p.activity = false) (hsubscribed : p.subscribed = none)
      (hgiven : p.suspended = some value) :
      Takes clock p { p with monitor := (p.monitor.setSuspended value clock).1, suspended := none }
  | tick (hquiet : p.Quiet) (hdue : p.nextTick ≤ clock) :
      Takes clock p { p with monitor := (p.monitor.tick clock).1, nextTick := p.nextTick + Limits.tick }

theorem takes_of_step? {notices : List PowerNotice} (h : p.step? clock = some (q, notices)) :
    p.Takes clock q := by
  unfold step? at h
  split at h
  · rename_i hgiven
    cases h
    exact .activity hgiven
  · rename_i hactivity
    rw [Bool.not_eq_true] at hactivity
    split at h
    · rename_i hgiven
      cases h
      exact .subscribed hactivity hgiven
    · rename_i hsubscribed
      have hsubscribed := Option.eq_none_iff_forall_ne_some.mpr hsubscribed
      split at h
      · rename_i hgiven
        cases h
        exact .suspended hactivity hsubscribed hgiven
      · rename_i hsuspended
        split at h
        · rename_i hdue
          cases h
          exact .tick ⟨hactivity, hsubscribed, Option.eq_none_iff_forall_ne_some.mpr hsuspended⟩ hdue
        · cases h

/-- A watch that has to wait has taken every signal, and every tick that was due. -/
theorem quiet_of_step?_eq_none (h : p.step? clock = none) : p.Quiet ∧ clock < p.nextTick := by
  unfold step? at h
  split at h
  · cases h
  · rename_i hactivity
    split at h
    · cases h
    · rename_i hsubscribed
      split at h
      · cases h
      · rename_i hsuspended
        split at h
        · cases h
        · rename_i hdue
          exact ⟨⟨by simpa using hactivity, Option.eq_none_iff_forall_ne_some.mpr hsubscribed,
            Option.eq_none_iff_forall_ne_some.mpr hsuspended⟩, Nat.lt_of_not_le hdue⟩

/-! ## Polls -/

/-- Number of ticks that are due. -/
def ticksDue (clock : Nat) (p : PowerWatch) : Nat :=
  (clock + Limits.tick - p.nextTick) / Limits.tick

/-- Number of things that are there to be taken. -/
def load (clock : Nat) (p : PowerWatch) : Nat :=
  p.activity.toNat + p.subscribed.isSome.toNat + p.suspended.isSome.toNat + p.ticksDue clock

/-- Take everything that is there. -/
def poll (clock : Nat) (p : PowerWatch) : PowerWatch × List PowerNotice :=
  Stepping.exhaust (step? clock) (p.load clock) p

/-- A step takes one thing away. -/
theorem load_step? {notices : List PowerNotice} (h : p.step? clock = some (q, notices)) :
    q.load clock < p.load clock := by
  cases takes_of_step? h with
  | activity hgiven | subscribed _ hgiven | suspended _ _ hgiven => simp [load, ticksDue, hgiven]
  | tick hquiet hdue =>
    simp only [load, ticksDue, Limits.tick]
    omega

/-- After a poll nothing is left to be taken. -/
theorem step?_poll (clock : Nat) (p : PowerWatch) : (p.poll clock).1.step? clock = none :=
  Stepping.exhaust_waits (fun _ _ _ h => load_step? h) p

end PowerWatch

end Peripheral
