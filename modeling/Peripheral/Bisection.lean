/-!
# `Peripheral.Bisection` — looking a key up in an ascending list by halving it

The layout and the hold tables are kept ascending by a 16-bit key, so one look-up halves what is
left at every step. On a list that ascends strictly the answer is the one position that carries the
key.

## Contents
- `Ascending`: strictly ascending keys.
- `position?`: the look-up.
- `position?_eq_some`, `position?_eq_none`: what the two answers say about an ascending list.
-/

namespace Peripheral.Bisection

variable {α : Type}

/-- The keys of the list rise strictly from each member to every later one. -/
def Ascending (key : α → UInt16) (xs : List α) : Prop :=
  xs.Pairwise fun a b => key a < key b

/-- Look-up in `xs`, whose first member has position `base`. Every halving leaves a shorter list, so
    as many halvings as there are members are enough. -/
def positionWithin (key : α → UInt16) (k : UInt16) : Nat → Nat → List α → Option Nat
  | 0, _, _ => none
  | n + 1, base, xs =>
    match xs.drop (xs.length / 2) with
    | [] => none
    | x :: above =>
      if key x = k then some (base + xs.length / 2)
      else if key x < k then positionWithin key k n (base + xs.length / 2 + 1) above
      else positionWithin key k n base (xs.take (xs.length / 2))

/-- The position of the member of `xs` whose key is `k`. -/
def position? (key : α → UInt16) (k : UInt16) (xs : List α) : Option Nat :=
  positionWithin key k xs.length 0 xs

/-! ## What a look-up says -/

/-- A position that the look-up names carries the key. -/
theorem positionWithin_sound {key : α → UInt16} {k : UInt16} {n base p : Nat} {xs : List α}
    (h : positionWithin key k n base xs = some p) :
    ∃ i x, p = base + i ∧ xs[i]? = some x ∧ key x = k := by
  induction n generalizing base xs with
  | zero => simp [positionWithin] at h
  | succ n ih =>
    unfold positionWithin at h
    split at h
    · simp at h
    · rename_i x above hdrop
      have hx : xs[xs.length / 2]? = some x := by
        rw [← List.head?_drop, hdrop]
        rfl
      split at h
      · rename_i hk
        exact ⟨xs.length / 2, x, (Option.some.inj h).symm, hx, hk⟩
      · split at h
        · obtain ⟨i, y, hp, hy, hk⟩ := ih h
          refine ⟨xs.length / 2 + 1 + i, y, by omega, ?_, hk⟩
          have : above = xs.drop (xs.length / 2 + 1) := by
            rw [← List.drop_drop, hdrop]
            rfl
          rw [← List.getElem?_drop, ← this]
          exact hy
        · obtain ⟨i, y, hp, hy, hk⟩ := ih h
          refine ⟨i, y, hp, ?_, hk⟩
          rw [List.getElem?_take] at hy
          split at hy
          · exact hy
          · simp at hy

/-- With enough halvings an ascending list never hides a member that carries the key. -/
theorem positionWithin_ne_none {key : α → UInt16} {k : UInt16} {n base : Nat} {xs : List α}
    (hasc : Ascending key xs) (hn : xs.length ≤ n) {x : α} (hx : x ∈ xs) (hk : key x = k) :
    positionWithin key k n base xs ≠ none := by
  induction n generalizing base xs with
  | zero =>
    have := List.length_pos_of_mem hx
    omega
  | succ n ih =>
    have hpos := List.length_pos_of_mem hx
    have hsplit := List.take_append_drop (xs.length / 2) xs
    have hlen : (xs.drop (xs.length / 2)).length = xs.length - xs.length / 2 := List.length_drop
    unfold positionWithin
    split
    · rename_i hdrop
      rw [hdrop] at hlen
      simp only [List.length_nil] at hlen
      omega
    · rename_i y above hdrop
      rw [hdrop] at hsplit hlen
      simp only [List.length_cons] at hlen
      have hparts : Ascending key (xs.take (xs.length / 2) ++ y :: above) := by
        rw [hsplit]
        exact hasc
      obtain ⟨hlow, hhigh, hcross⟩ := List.pairwise_append.mp hparts
      obtain ⟨hfirst, habove⟩ := List.pairwise_cons.mp hhigh
      have hmem : x ∈ xs.take (xs.length / 2) ∨ x ∈ y :: above := by
        rw [← List.mem_append, hsplit]
        exact hx
      split
      · simp
      · rename_i hne
        split
        · rename_i hlt
          refine ih habove (by omega) ?_
          rcases hmem with hin | hin
          · have := hcross x hin y (by simp)
            rw [hk] at this
            exact absurd hlt (UInt16.lt_asymm this)
          · rcases List.mem_cons.mp hin with rfl | hin
            · exact absurd hk hne
            · exact hin
        · rename_i hnlt
          refine ih hlow ?_ ?_
          · rw [List.length_take]
            omega
          · rcases hmem with hin | hin
            · exact hin
            · rcases List.mem_cons.mp hin with rfl | hin
              · exact absurd hk hne
              · exact absurd (hk ▸ hfirst x hin) hnlt

/-- Keys that rise strictly occur once. -/
theorem Ascending.position_unique {key : α → UInt16} {xs : List α} (hasc : Ascending key xs)
    {i j : Nat} {x y : α} (hi : xs[i]? = some x) (hj : xs[j]? = some y) (h : key x = key y) :
    i = j := by
  obtain ⟨hil, hxi⟩ := List.getElem?_eq_some_iff.mp hi
  obtain ⟨hjl, hyj⟩ := List.getElem?_eq_some_iff.mp hj
  have hpair := List.pairwise_iff_getElem.mp hasc
  rcases Nat.lt_trichotomy i j with hlt | heq | hgt
  · have := hpair i j hil hjl hlt
    rw [hxi, hyj, h] at this
    exact absurd this (UInt16.lt_irrefl _)
  · exact heq
  · have := hpair j i hjl hil hgt
    rw [hxi, hyj, h] at this
    exact absurd this (UInt16.lt_irrefl _)

/-- In an ascending list the look-up names the one position that carries the key. -/
theorem position?_eq_some {key : α → UInt16} {k : UInt16} {xs : List α}
    (hasc : Ascending key xs) {p : Nat} :
    position? key k xs = some p ↔ ∃ x, xs[p]? = some x ∧ key x = k := by
  constructor
  · intro h
    obtain ⟨i, x, hp, hx, hk⟩ := positionWithin_sound h
    rw [Nat.zero_add] at hp
    exact ⟨x, hp ▸ hx, hk⟩
  · rintro ⟨x, hx, hk⟩
    cases hq : position? key k xs with
    | none =>
      exact absurd hq
        (positionWithin_ne_none hasc (Nat.le_refl _) (List.mem_of_getElem? hx) hk)
    | some q =>
      obtain ⟨i, y, hqi, hy, hky⟩ := positionWithin_sound hq
      rw [Nat.zero_add] at hqi
      rw [hqi, hasc.position_unique hy hx (hky.trans hk.symm)]

/-- In an ascending list the look-up fails only where no member carries the key. -/
theorem position?_eq_none {key : α → UInt16} {k : UInt16} {xs : List α}
    (hasc : Ascending key xs) :
    position? key k xs = none ↔ ∀ x ∈ xs, key x ≠ k := by
  constructor
  · intro h x hx hk
    exact positionWithin_ne_none hasc (Nat.le_refl _) hx hk h
  · intro h
    cases hq : position? key k xs with
    | none => rfl
    | some q =>
      obtain ⟨i, y, -, hy, hky⟩ := positionWithin_sound hq
      exact absurd hky (h y (List.mem_of_getElem? hy))

end Peripheral.Bisection
