import Peripheral.Target

/-!
# `Peripheral.Backlog` — updates that wait to be reported

While no host listens, or a report is still under way, updates wait here in order of arrival. Old
ones are dropped, but a press only together with the release that brings its usage back to where it
was. So what goes is a *closed* prefix of the stale updates, in which every press has its pair: the
update at which the changes of its usage, from the press on, first sum to zero.

## Contents
- `Pending`, `Backlog`: the data.
- `staleCount`, `pairDistance?`, `closedCount`: how much of a backlog is stale, and how much of that
  is closed.
- `purge`, `store`, `next?`: dropping, storing and taking updates.
-/

namespace Peripheral

/-- An update that waits: the usage, the change of its level, and the time of arrival. -/
structure Pending where
  target : Target
  usage : UInt16
  change : Int16
  time : UInt32
  deriving DecidableEq, Repr

namespace Pending

/-- Milliseconds that an update has waited. The clock wraps, so the age is a difference modulo its
    range. -/
def age (e : Pending) (now : UInt32) : UInt32 := now - e.time

/-- The update adds to the level of its usage. -/
def isPress (e : Pending) : Bool := 0 < e.change

/-- Both updates are for one usage of one report. -/
def sameUsage (e f : Pending) : Bool := e.target = f.target && e.usage = f.usage

end Pending

/-! ## Stale and closed prefixes -/

/-- Length of the longest prefix of updates that are stale at `now`. -/
def staleCount (window now : UInt32) : List Pending → Nat
  | [] => 0
  | e :: rest => if e.age now < window then 0 else staleCount window now rest + 1

/-- The sum of `level` and the changes to the usage of `e`, after each of the updates in turn. -/
def runningLevels (e : Pending) (level : Int) : List Pending → List Int
  | [] => []
  | f :: rest =>
    if e.sameUsage f then (level + f.change.toInt) :: runningLevels e (level + f.change.toInt) rest
    else level :: runningLevels e level rest

/-- Position in `rest` of the pair of the press `e`: the first update at which the changes to its
    usage, its own included, sum to zero. -/
def pairDistance? (e : Pending) (rest : List Pending) : Option Nat :=
  (runningLevels e e.change.toInt rest).findIdx? fun level => level = 0

/-- Walk along stale updates in batches and return where the last closed batch ends. `reach` is the
    last position that the batch under way needs: the farthest pair of its presses. It is `some 0`
    at the start, so that a first update that is no press is a batch by itself, and `none` once a
    batch has closed, so that later ones end with a pair. A press without a pair ends the walk. -/
def closedFrom (pos : Nat) (reach : Option Nat) (closed : Nat) : List Pending → Nat
  | [] => closed
  | e :: rest =>
    if e.isPress then
      match pairDistance? e rest with
      -- The press has to stay, and with it all that follows.
      | none => closed
      | some d => closedFrom (pos + 1) (some (max (reach.getD 0) (pos + 1 + d))) closed rest
    -- The farthest pair is here, so the batch can go.
    else if reach = some pos then closedFrom (pos + 1) none (pos + 1) rest
    else closedFrom (pos + 1) reach closed rest

/-- Number of updates at the front of a stale list that can go together. -/
def closedCount (stale : List Pending) : Nat := closedFrom 0 (some 0) 0 stale

/-! ## The backlog -/

/-- Updates in order of arrival, the room for them, and the age at which they are stale. -/
structure Backlog where
  capacity : Nat
  window : UInt32
  pending : List Pending
  deriving DecidableEq, Repr

/-- What storing an update took. -/
structure Receipt where
  /-- Stale updates dropped. -/
  purged : Nat
  /-- All waiting updates were given up. -/
  reset : Bool
  /-- The update has been stored. -/
  stored : Bool
  deriving DecidableEq, Repr

namespace Backlog

/-- A backlog in which nothing waits. -/
def empty (capacity : Nat) (window : UInt32) : Backlog := ⟨capacity, window, []⟩

/-- Number of waiting updates. -/
def size (b : Backlog) : Nat := b.pending.length

/-- Nothing waits. -/
def isEmpty (b : Backlog) : Bool := b.pending.isEmpty

/-- There is no room for one more update. -/
def isFull (b : Backlog) : Bool := b.capacity ≤ b.size

/-- Drop everything that waits. -/
def clear (b : Backlog) : Backlog := { b with pending := [] }

/-- Take the oldest update. -/
def next? (b : Backlog) : Option (Pending × Backlog) :=
  match b.pending with
  | [] => none
  | e :: rest => some (e, { b with pending := rest })

/-- Number of updates that a purge at `now` drops. -/
def purgeable (b : Backlog) (now : UInt32) : Nat :=
  closedCount (b.pending.take (staleCount b.window now b.pending))

/-- Drop the stale updates that can go. -/
def purge (b : Backlog) (now : UInt32) : Backlog :=
  { b with pending := b.pending.drop (b.purgeable now) }

/-- The first purge that drops anything when time is taken to be the expiry of the first waiting
    update, then of the second, and so on. -/
def ageing? (b : Backlog) : Option UInt32 :=
  (b.pending.map fun e => e.time + b.window).find? fun expiry => 0 < b.purgeable expiry

/-- Make room for an update at `now`: drop what is stale; if that is not enough and nobody listens
    yet (`ageing`), drop what ages first; and give up everything if that is not enough either. -/
def makeRoom (b : Backlog) (now : UInt32) (ageing : Bool) : Backlog × Nat × Bool :=
  let dropped := b.purgeable now
  let b := b.purge now
  if b.isFull then
    -- Every purge that drops anything makes room, so the first one is enough.
    match if ageing then b.ageing? else none with
    | some expiry => (b.purge expiry, dropped + b.purgeable expiry, false)
    | none => (b.clear, dropped, true)
  else (b, dropped, false)

/-- Store an update at its time of arrival. -/
def store (b : Backlog) (e : Pending) (ageing : Bool) : Backlog × Receipt :=
  let (b, purged, reset) := b.makeRoom e.time ageing
  if b.isFull then (b, ⟨purged, reset, false⟩)
  else ({ b with pending := b.pending ++ [e] }, ⟨purged, reset, true⟩)

end Backlog

end Peripheral
