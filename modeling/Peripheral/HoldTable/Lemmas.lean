import Peripheral.HoldTable

/-!
# `Peripheral.HoldTable.Lemmas` — what updates keep of a table

## Contents
- `sortByUsage_perm`, `length_sortByUsage`: sorting moves places and loses none.
- `wellFormed_empty`, `wellFormed_of_update`: a table keeps its promise.
- `capacity_of_update`: an update leaves the number of places alone.
-/

namespace Peripheral.HoldTable

/-! ## Sorting -/

theorem insertByUsage_perm (h : Hold) (places : List Hold) :
    (insertByUsage h places).Perm (h :: places) := by
  induction places with
  | nil => exact List.Perm.refl _
  | cons a rest ih =>
    unfold insertByUsage
    split
    · exact List.Perm.refl _
    · exact (ih.cons a).trans (List.Perm.swap h a rest)

/-- Sorting moves places and loses none. -/
theorem sortByUsage_perm (places : List Hold) : (sortByUsage places).Perm places := by
  induction places with
  | nil => exact List.Perm.refl _
  | cons a rest ih => exact (insertByUsage_perm a _).trans (ih.cons a)

@[simp] theorem length_sortByUsage (places : List Hold) :
    (sortByUsage places).length = places.length :=
  (sortByUsage_perm places).length_eq

/-! ## The promise -/

theorem ordered_replicate_vacant (n : Nat) : ordered (List.replicate n Hold.vacant) = true := by
  induction n with
  | zero => rfl
  | succ n ih =>
    cases n with
    | zero => rfl
    | succ n => simpa [List.replicate_succ, ordered, Hold.isVacant, Hold.vacant] using ih

@[simp] theorem holds_empty (capacity : Nat) : (empty capacity).holds = [] := by
  simp [holds, empty, vacancies, HoldTable.capacity]

@[simp] theorem capacity_empty (n : Nat) : (empty n).capacity = n := by
  simp [capacity, empty]

/-- A table without a hold keeps the promise. -/
theorem wellFormed_empty (capacity : Nat) : (empty capacity).WellFormed := by
  refine ⟨ordered_replicate_vacant capacity, ?_, by simp⟩
  simp [empty, List.countP_replicate, Hold.isVacant, Hold.vacant]

theorem vouch_eq_ok {t t' : HoldTable} {e e' : Effect} (h : t.vouch e = .ok (t', e')) :
    t' = t ∧ e' = e ∧ t.WellFormed := by
  unfold vouch at h
  split at h
  · rename_i hwf
    cases h
    exact ⟨rfl, rfl, hwf⟩
  · cases h

/-! ## Updates -/

@[simp] theorem capacity_shift (t : HoldTable) (place : Nat) (change : Int16) :
    (t.shift place change).capacity = t.capacity := by
  unfold shift
  split
  · rfl
  · split <;> simp [capacity]

@[simp] theorem capacity_occupy (t : HoldTable) (usage : UInt16) (level : Int16) :
    (t.occupy usage level).capacity = t.capacity := by
  simp [occupy, capacity]

/-- The tables that an update can hand out: the old one, one with a level changed, and one with a
    new hold. -/
theorem update_cases {t t' : HoldTable} {usage : UInt16} {change : Int16} {e : Effect}
    (h : t.update usage change = .ok (t', e)) :
    t'.WellFormed ∧
      ((∃ place, t.placeOf? usage = some place ∧ e = .changed ∧ t' = t.shift place change) ∨
        (t.placeOf? usage = none ∧ change < 0 ∧ e = .unheld ∧ t' = t) ∨
        (t.placeOf? usage = none ∧ ¬change < 0 ∧ t.isFull = true ∧ e = .noRoom ∧ t' = t) ∨
        (t.placeOf? usage = none ∧ t.places[t.freePlace]?.any Hold.isVacant = true ∧ e = .changed
          ∧ t' = t.occupy usage change)) := by
  unfold update at h
  split at h
  · cases h
  split at h
  · cases h
  split at h
  · rename_i place hplace
    obtain ⟨rfl, rfl, hwf⟩ := vouch_eq_ok h
    exact ⟨hwf, .inl ⟨place, hplace, rfl, rfl⟩⟩
  · rename_i hplace
    split at h
    · rename_i hneg
      obtain ⟨rfl, rfl, hwf⟩ := vouch_eq_ok h
      exact ⟨hwf, .inr (.inl ⟨hplace, hneg, rfl, rfl⟩)⟩
    · rename_i hpos
      split at h
      · rename_i hfull
        obtain ⟨rfl, rfl, hwf⟩ := vouch_eq_ok h
        exact ⟨hwf, .inr (.inr (.inl ⟨hplace, hpos, hfull, rfl, rfl⟩))⟩
      · split at h
        · rename_i hfree
          obtain ⟨rfl, rfl, hwf⟩ := vouch_eq_ok h
          exact ⟨hwf, .inr (.inr (.inr ⟨hplace, hfree, rfl, rfl⟩))⟩
        · cases h

/-- Updates are of usages that a hold can have, and change something. -/
theorem ne_zero_of_update {t t' : HoldTable} {usage : UInt16} {change : Int16} {e : Effect}
    (h : t.update usage change = .ok (t', e)) : usage ≠ 0 ∧ change ≠ 0 := by
  unfold update at h
  split at h
  · cases h
  · rename_i husage
    split at h
    · cases h
    · rename_i hchange
      exact ⟨husage, hchange⟩

/-- An update hands out tables that keep the promise. -/
theorem wellFormed_of_update {t t' : HoldTable} {usage : UInt16} {change : Int16} {e : Effect}
    (h : t.update usage change = .ok (t', e)) : t'.WellFormed :=
  (update_cases h).1

/-- An update leaves the number of places alone. -/
theorem capacity_of_update {t t' : HoldTable} {usage : UInt16} {change : Int16} {e : Effect}
    (h : t.update usage change = .ok (t', e)) : t'.capacity = t.capacity := by
  rcases (update_cases h).2 with ⟨_, _, _, rfl⟩ | ⟨_, _, _, rfl⟩ | ⟨_, _, _, _, rfl⟩ |
    ⟨_, _, _, rfl⟩ <;> simp

end Peripheral.HoldTable
