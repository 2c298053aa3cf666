import Peripheral.Layout

/-!
# `Peripheral.Proofs.Bindings` — what a layout that was accepted can be relied on for

## Contents
- `ascending_bindings`: keys rise strictly, so a key has one binding at most.
- `renderable_of_mem`: every usage that is bound has a place in its report.
- `lookup_eq_some_iff`: a look-up finds the binding of a key wherever it stands.
-/

namespace Peripheral.Layout

variable {l : Layout} {key : UInt16} {b : Binding}

/-- Without an unsorted position the keys rise strictly. -/
theorem ascending_of_firstUnsorted? {index : Nat} {bindings : List Binding}
    (h : firstUnsorted? index bindings = none) : Bisection.Ascending Binding.key bindings := by
  induction bindings generalizing index with
  | nil => exact .nil
  | cons a rest ih =>
    cases rest with
    | nil => exact List.pairwise_singleton _ _
    | cons b rest =>
      unfold firstUnsorted? at h
      split at h
      · rename_i hlt
        have htail := ih h
        refine List.pairwise_cons.mpr ⟨?_, htail⟩
        intro c hc
        rcases List.mem_cons.mp hc with rfl | hc
        · exact hlt
        · -- Further up the keys are above `b` already.
          exact UInt16.lt_trans hlt ((List.pairwise_cons.mp htail).1 c hc)
      · cases h

/-- The two parts of being accepted. -/
theorem accepted_parts (l : Layout) :
    firstUnsorted? 1 l.bindings = none ∧ l.bindings.findSome? bindingError? = none := by
  have h := l.accepted
  unfold firstError? at h
  split at h
  · cases h
  · rename_i hsorted
    exact ⟨hsorted, h⟩

/-- The keys of a layout rise strictly. -/
theorem ascending_bindings (l : Layout) : Bisection.Ascending Binding.key l.bindings :=
  ascending_of_firstUnsorted? l.accepted_parts.1

/-- Every usage that is bound has a place in its report. -/
theorem renderable_of_mem (h : b ∈ l.bindings) : Renderable b.target b.usage := by
  have herror := List.findSome?_eq_none_iff.mp l.accepted_parts.2 b h
  unfold bindingError? at herror
  split at herror
  · cases herror
  · split at herror
    · assumption
    · cases herror

/-- A look-up finds the binding of a key wherever it stands. -/
theorem lookup_eq_some_iff : l.lookup key = some b ↔ b ∈ l.bindings ∧ b.key = key := by
  unfold lookup
  rw [Option.bind_eq_some_iff]
  constructor
  · rintro ⟨p, hp, hb⟩
    obtain ⟨x, hx, hkey⟩ := (Bisection.position?_eq_some l.ascending_bindings).mp hp
    obtain rfl : x = b := Option.some.inj (hx.symm.trans hb)
    exact ⟨List.mem_of_getElem? hx, hkey⟩
  · rintro ⟨hmem, hkey⟩
    obtain ⟨p, hp⟩ := List.getElem?_of_mem hmem
    exact ⟨p, (Bisection.position?_eq_some l.ascending_bindings).mpr ⟨b, hp, hkey⟩, hp⟩

end Peripheral.Layout
