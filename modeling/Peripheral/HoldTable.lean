import Peripheral.Bisection
import Peripheral.Fault
import Peripheral.Saturating

/-!
# `Peripheral.HoldTable` — which usages of a report are held, and how often

Several keys can produce one usage, so a hold counts how often it is pressed: a press adds to the
level of the usage, a release takes from it, and at zero the usage is let go.

A table has a fixed number of places. They stay sorted by usage; vacant places carry usage 0 and so
stand below the holds, which are the last `count` places.

## Contents
- `Hold`, `HoldTable`: the data, with the views `holds` and `level?`.
- `HoldTable.WellFormed`: the promise that a table makes about its places.
- `HoldTable.update`: a press or a release, with the `Effect` it has.
-/

namespace Peripheral

/-- A usage and how often it is held. Usage 0 marks a vacant place. -/
structure Hold where
  usage : UInt16
  level : Int16
  deriving DecidableEq, Repr

/-- A place without a hold. -/
def Hold.vacant : Hold := ⟨0, 0⟩

/-- The place holds nothing. -/
def Hold.isVacant (h : Hold) : Bool := h.usage = 0

/-- What an update does to a table. -/
inductive Effect
  /-- The usage was tracked or is so now, and a report is due. -/
  | changed
  /-- A release of a usage that is not held; nothing happens. -/
  | unheld
  /-- A press that finds no vacant place; it is lost. -/
  | noRoom
  deriving DecidableEq, Repr

/-- The places of a report's table and the number of holds in them. -/
structure HoldTable where
  places : List Hold
  count : Nat
  deriving DecidableEq, Repr

namespace HoldTable

/-- A table of `capacity` vacant places. -/
def empty (capacity : Nat) : HoldTable := ⟨List.replicate capacity Hold.vacant, 0⟩

/-- Number of places. -/
def capacity (t : HoldTable) : Nat := t.places.length

/-- Number of vacant places. -/
def vacancies (t : HoldTable) : Nat := t.capacity - t.count

/-- The holds, by ascending usage. -/
def holds (t : HoldTable) : List Hold := t.places.drop t.vacancies

/-- How often a usage is held, if it is. -/
def level? (t : HoldTable) (usage : UInt16) : Option Int16 :=
  (t.holds.find? fun h => h.usage = usage).map Hold.level

/-- Nothing is held. -/
def isEmpty (t : HoldTable) : Bool := t.count = 0

/-- No place is vacant. -/
def isFull (t : HoldTable) : Bool := t.capacity ≤ t.count

/-- The table with every hold let go. -/
def clear (t : HoldTable) : HoldTable := empty t.capacity

/-! ## The promise -/

/-- Each place stands below the next one, or is vacant. -/
def ordered : List Hold → Bool
  | a :: b :: rest => (a.usage < b.usage || a.isVacant) && ordered (b :: rest)
  | _ => true

/-- The places are in order, as many hold something as are counted, and every hold has a positive
    level. -/
def WellFormed (t : HoldTable) : Prop :=
  ordered t.places = true ∧ t.places.countP (!·.isVacant) = t.count ∧ ∀ h ∈ t.holds, 0 < h.level

instance (t : HoldTable) : Decidable t.WellFormed := by
  unfold WellFormed
  infer_instance

/-! ## Updates -/

/-- `h` put below the first place of a greater or equal usage. -/
def insertByUsage (h : Hold) : List Hold → List Hold
  | [] => [h]
  | a :: rest => if h.usage ≤ a.usage then h :: a :: rest else a :: insertByUsage h rest

/-- The places sorted by usage. -/
def sortByUsage : List Hold → List Hold
  | [] => []
  | a :: rest => insertByUsage a (sortByUsage rest)

/-- The place of a usage that is held. -/
def placeOf? (t : HoldTable) (usage : UInt16) : Option Nat :=
  (Bisection.position? Hold.usage usage t.holds).map (· + t.vacancies)

/-- The table after the hold at a place has gained `change`; without anything left of it the place
    becomes vacant. -/
def shift (t : HoldTable) (place : Nat) (change : Int16) : HoldTable :=
  match t.places[place]? with
  | none => t
  | some h =>
    if 0 < Saturating.add16 h.level change then
      { t with places := t.places.set place ⟨h.usage, Saturating.add16 h.level change⟩ }
    else
      ⟨sortByUsage (t.places.set place Hold.vacant), t.count - 1⟩

/-- The place right below the holds, where a new one goes. -/
def freePlace (t : HoldTable) : Nat := t.vacancies - 1

/-- The table after a new hold has taken the place right below the others. -/
def occupy (t : HoldTable) (usage : UInt16) (level : Int16) : HoldTable :=
  ⟨sortByUsage (t.places.set t.freePlace ⟨usage, level⟩), t.count + 1⟩

/-- Hand a table out only if it keeps its promise. -/
def vouch (t : HoldTable) (e : Effect) : Except Fault (HoldTable × Effect) :=
  if t.WellFormed then .ok (t, e) else .error .disorderedTable

/-- Add `change` to the level of a usage: positive for a press, negative for a release. A level
    never goes below zero, as the release of a usage that is not held has no effect. -/
def update (t : HoldTable) (usage : UInt16) (change : Int16) :
    Except Fault (HoldTable × Effect) :=
  if usage = 0 then .error .reservedUsage
  else if change = 0 then .error .zeroChange
  else
    match t.placeOf? usage with
    | some place => (t.shift place change).vouch .changed
    | none =>
      -- Only a press can take a place, and only a vacant one.
      if change < 0 then t.vouch .unheld
      else if t.isFull then t.vouch .noRoom
      else if t.places[t.freePlace]?.any Hold.isVacant then (t.occupy usage change).vouch .changed
      else .error .occupiedPlace

end HoldTable

end Peripheral
