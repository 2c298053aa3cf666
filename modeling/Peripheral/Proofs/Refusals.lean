import Mathlib.Order.Bounds.Defs
import Peripheral.Proofs.Bindings

/-!
# `Peripheral.Proofs.Refusals` — which lists of bindings make a layout, and why the others do not

A list of bindings is walked twice. The first walk is about the keys alone and stops at the first one that is not
above the key before it; only a list that has passed it is walked binding by binding. So there is one refusal for a
list, whatever else is wrong with it, and a list that is not refused has everything that a look-up needs.

## Contents
- `Descent`, `OutOfOrder`, `firstUnsorted?_eq_some_iff`: the walk over the keys.
- `ascending_iff_forall_not_outOfOrder`: neighbours in order are keys in order.
- `Flaw`, `bindingError?_eq_some_iff`: what can be wrong with a single binding.
- `WellMade`, `refusals_and_lookups`: the verdict on every list, and what a layout answers.
-/

namespace Peripheral.Layout

variable {bindings : List Binding} {index : Nat} {b : Binding} {e : LayoutError}

/-! ## The order of the keys -/

/-- The key behind position `i` is not above the one at it. -/
def Descent (bindings : List Binding) (i : Nat) : Prop :=
  ∃ a b, bindings[i]? = some a ∧ bindings[i + 1]? = some b ∧ b.key ≤ a.key

/-- The key at a position is not above the key at the position before it. -/
def OutOfOrder (bindings : List Binding) (index : Nat) : Prop := ∃ i, index = i + 1 ∧ Descent bindings i

theorem descent_cons_cons_zero {a b : Binding} : Descent (a :: b :: bindings) 0 ↔ b.key ≤ a.key := by
  constructor
  · rintro ⟨a', b', ha, hb, hle⟩
    cases ha
    cases hb
    exact hle
  · intro hle
    exact ⟨a, b, rfl, rfl, hle⟩

theorem not_descent_singleton {a : Binding} {i : Nat} : ¬ Descent [a] i := by
  rintro ⟨a', b', -, hb, -⟩
  simp at hb

/-- The walk stops at the first descent, and counts on from where it started. -/
theorem firstUnsorted?_eq_some_iff {start : Nat} :
    firstUnsorted? start bindings = some index ↔
      ∃ i, index = start + i ∧ Descent bindings i ∧ ∀ j, Descent bindings j → i ≤ j := by
  induction bindings generalizing start with
  | nil =>
    constructor
    · exact nofun
    · rintro ⟨i, -, ⟨a, b, ha, -, -⟩, -⟩
      cases ha
  | cons a rest ih =>
    cases rest with
    | nil =>
      constructor
      · exact nofun
      · rintro ⟨i, -, hdescent, -⟩
        exact absurd hdescent not_descent_singleton
    | cons b rest =>
      unfold firstUnsorted?
      split
      · next hlt =>
        rw [ih]
        constructor
        · rintro ⟨i, rfl, hdescent, hleast⟩
          refine ⟨i + 1, by omega, hdescent, ?_⟩
          intro j hj
          cases j with
          | zero => exact absurd (descent_cons_cons_zero.mp hj) (UInt16.not_le.mpr hlt)
          | succ j => exact Nat.succ_le_succ (hleast j hj)
        · rintro ⟨i, rfl, hdescent, hleast⟩
          cases i with
          | zero => exact absurd (descent_cons_cons_zero.mp hdescent) (UInt16.not_le.mpr hlt)
          | succ i =>
            refine ⟨i, by omega, hdescent, ?_⟩
            intro j hj
            exact Nat.le_of_succ_le_succ (hleast (j + 1) hj)
      · next hnotlt =>
        have hfirst : Descent (a :: b :: rest) 0 := descent_cons_cons_zero.mpr (UInt16.not_lt.mp hnotlt)
        constructor
        · rintro ⟨⟩
          exact ⟨0, rfl, hfirst, fun j _ => Nat.zero_le j⟩
        · rintro ⟨i, rfl, -, hleast⟩
          have hzero := hleast 0 hfirst
          obtain rfl : i = 0 := by omega
          rfl

/-- **The refusal for unsorted keys names the first position that is out of order.** -/
theorem firstUnsorted?_eq_some_iff_isLeast :
    firstUnsorted? 1 bindings = some index ↔ IsLeast {i | OutOfOrder bindings i} index := by
  rw [firstUnsorted?_eq_some_iff]
  constructor
  · rintro ⟨i, rfl, hdescent, hleast⟩
    refine ⟨⟨i, Nat.add_comm 1 i, hdescent⟩, ?_⟩
    rintro _ ⟨j, rfl, hj⟩
    have hle := hleast j hj
    omega
  · rintro ⟨⟨i, rfl, hdescent⟩, hleast⟩
    refine ⟨i, Nat.add_comm i 1, hdescent, ?_⟩
    intro j hj
    exact Nat.le_of_succ_le_succ (hleast ⟨j, rfl, hj⟩)

theorem firstUnsorted?_eq_none_of_forall (h : ∀ i, ¬ OutOfOrder bindings i) : firstUnsorted? 1 bindings = none := by
  rw [Option.eq_none_iff_forall_ne_some]
  intro i hi
  exact h i (firstUnsorted?_eq_some_iff_isLeast.mp hi).1

/-- **Keys whose neighbours are in order are all in order.** -/
theorem ascending_iff_forall_not_outOfOrder :
    Bisection.Ascending Binding.key bindings ↔ ∀ i, ¬ OutOfOrder bindings i := by
  constructor
  · rintro hascending _ ⟨i, rfl, a, b, ha, hb, hle⟩
    obtain ⟨hi, rfl⟩ := List.getElem?_eq_some_iff.mp ha
    obtain ⟨hj, rfl⟩ := List.getElem?_eq_some_iff.mp hb
    have hlt := List.pairwise_iff_getElem.mp hascending i (i + 1) hi hj (Nat.lt_succ_self i)
    exact absurd hlt (UInt16.not_lt.mpr hle)
  · intro hnone
    exact ascending_of_firstUnsorted? (firstUnsorted?_eq_none_of_forall hnone)

/-- The walk over the keys ends without a refusal if they rise strictly, and only then. -/
theorem firstUnsorted?_eq_none_iff :
    firstUnsorted? 1 bindings = none ↔ Bisection.Ascending Binding.key bindings := by
  constructor
  · exact ascending_of_firstUnsorted?
  · intro hascending
    exact firstUnsorted?_eq_none_of_forall (ascending_iff_forall_not_outOfOrder.mp hascending)

/-! ## Single bindings -/

/-- What can be wrong with a binding: there is no report for it, or its usage has no place in the report. -/
inductive Flaw (b : Binding) : LayoutError → Prop
  | media (ht : b.target = .media) : Flaw b (.unsupportedTarget b.key)
  | key (ht : b.target = .keyboard) (husage : ¬ (1 ≤ b.usage.toNat ∧ b.usage.toNat ≤ 255)) :
      Flaw b (.unusableUsage b.key b.usage)
  | button (ht : b.target = .mouse) (husage : ¬ (1 ≤ b.usage.toNat ∧ b.usage.toNat ≤ 8)) :
      Flaw b (.unusableUsage b.key b.usage)

/-- A single binding is refused for what is wrong with it. -/
theorem bindingError?_eq_some_iff : bindingError? b = some e ↔ Flaw b e := by
  obtain ⟨key, usage, target⟩ := b
  constructor
  · intro h
    unfold bindingError? at h
    split at h
    · next ht =>
      cases h
      exact .media ht
    · next ht =>
      split at h
      · cases h
      · next husage =>
        cases h
        cases target with
        | keyboard => exact .key rfl husage
        | mouse => exact .button rfl husage
        | media => exact absurd rfl ht
  · rintro (ht | ⟨ht, husage⟩ | ⟨ht, husage⟩)
    · exact if_pos ht
    · obtain rfl : target = .keyboard := ht
      exact if_neg husage
    · obtain rfl : target = .mouse := ht
      exact if_neg husage

/-- A binding is not refused if nothing is wrong with it. -/
theorem bindingError?_eq_none_iff : bindingError? b = none ↔ ∀ e, ¬ Flaw b e := by
  rw [Option.eq_none_iff_forall_ne_some]
  exact forall_congr' fun e => not_congr bindingError?_eq_some_iff

theorem forall_not_flaw_iff :
    (∀ e, ¬ Flaw b e) ↔ b.target ≠ .media
      ∧ (b.target = .keyboard → 1 ≤ b.usage.toNat ∧ b.usage.toNat ≤ 255)
      ∧ (b.target = .mouse → 1 ≤ b.usage.toNat ∧ b.usage.toNat ≤ 8) := by
  constructor
  · intro h
    refine ⟨fun ht => h _ (.media ht), ?_, ?_⟩
    · intro ht
      exact Decidable.by_contra fun husage => h _ (.key ht husage)
    · intro ht
      exact Decidable.by_contra fun husage => h _ (.button ht husage)
  · rintro ⟨hmedia, hkey, hbutton⟩ e (ht | ⟨ht, husage⟩ | ⟨ht, husage⟩)
    · exact hmedia ht
    · exact husage (hkey ht)
    · exact husage (hbutton ht)

/-! ## The verdict -/

/-- What a list of bindings has to be to make a layout. -/
structure WellMade (bindings : List Binding) : Prop where
  ascending : bindings.Pairwise fun a b => a.key < b.key
  reported : ∀ b ∈ bindings, b.target ≠ .media
  keys : ∀ b ∈ bindings, b.target = .keyboard → 1 ≤ b.usage.toNat ∧ b.usage.toNat ≤ 255
  buttons : ∀ b ∈ bindings, b.target = .mouse → 1 ≤ b.usage.toNat ∧ b.usage.toNat ≤ 8

/-- The two walks find nothing in a list that is well made, and in no other. -/
theorem firstError?_eq_none_iff : firstError? bindings = none ↔ WellMade bindings := by
  have hsingle : bindings.findSome? bindingError? = none ↔ ∀ b ∈ bindings, ∀ e, ¬ Flaw b e := by
    rw [List.findSome?_eq_none_iff]
    exact forall₂_congr fun b _ => bindingError?_eq_none_iff
  unfold firstError?
  cases hsorted : firstUnsorted? 1 bindings with
  | some index =>
    constructor
    · exact nofun
    · intro hmade
      rw [firstUnsorted?_eq_none_iff.mpr hmade.ascending] at hsorted
      cases hsorted
  | none =>
    dsimp only
    rw [hsingle]
    simp only [forall_not_flaw_iff]
    constructor
    · intro h
      exact ⟨firstUnsorted?_eq_none_iff.mp hsorted, fun b hb => (h b hb).1, fun b hb => (h b hb).2.1,
        fun b hb => (h b hb).2.2⟩
    · intro hmade b hb
      exact ⟨hmade.reported b hb, hmade.keys b hb, hmade.buttons b hb⟩

/-- Keys that are out of order are refused first, wherever the first of them stands. -/
theorem firstError?_eq_unsorted_iff :
    firstError? bindings = some (.unsorted index) ↔ IsLeast {i | OutOfOrder bindings i} index := by
  rw [← firstUnsorted?_eq_some_iff_isLeast]
  unfold firstError?
  cases firstUnsorted? 1 bindings with
  | some i => simp
  | none =>
    -- No single binding is refused for the order of the keys.
    dsimp only
    constructor
    · intro h
      obtain ⟨_, b, _, -, hb, -⟩ := List.findSome?_eq_some_iff.mp h
      cases bindingError?_eq_some_iff.mp hb
    · exact nofun

/-- Other refusals are for lists whose keys are in order, and name the first binding that something is wrong
    with. -/
theorem firstError?_eq_flaw_iff (hother : ∀ i, e ≠ .unsorted i) :
    firstError? bindings = some e ↔ (∀ i, ¬ OutOfOrder bindings i)
      ∧ ∃ before b after, bindings = before ++ b :: after ∧ Flaw b e ∧ ∀ c ∈ before, ∀ e', ¬ Flaw c e' := by
  rw [← ascending_iff_forall_not_outOfOrder, ← firstUnsorted?_eq_none_iff]
  unfold firstError?
  cases firstUnsorted? 1 bindings with
  | some i => simp [(hother i).symm]
  | none =>
    dsimp only
    rw [List.findSome?_eq_some_iff]
    simp only [bindingError?_eq_some_iff, bindingError?_eq_none_iff, true_and]

theorem ofBindings_eq_ok_iff {l : Layout} :
    ofBindings bindings = .ok l ↔ firstError? bindings = none ∧ l.bindings = bindings := by
  obtain ⟨held, accepted⟩ := l
  unfold ofBindings
  split
  · next e he => simp [he]
  · next hnone =>
    constructor
    · rintro ⟨⟩
      exact ⟨hnone, rfl⟩
    · rintro ⟨-, rfl⟩
      rfl

theorem ofBindings_eq_error_iff : ofBindings bindings = .error e ↔ firstError? bindings = some e := by
  unfold ofBindings
  split
  · next e' he => simp [he]
  · next hnone => simp [hnone]

/-- **The verdict on a list of bindings, and what a layout answers.** A list makes a layout, which then has these
    bindings, exactly if it is well made: its keys rise strictly, and each usage has a place in a report that
    exists. If some position is out of order, the least such position is the refusal, whatever is wrong with
    single bindings. If none is, the first binding that something is wrong with is refused by its own key and
    usage. In a layout no two positions have the same key, and a look-up answers with usage and report of the
    binding that has the key, or with nothing if no binding has it. -/
theorem refusals_and_lookups (bindings : List Binding) :
    ((∃ l, ofBindings bindings = .ok l) ↔ WellMade bindings)
      ∧ (∀ index, ofBindings bindings = .error (.unsorted index) ↔ IsLeast {i | OutOfOrder bindings i} index)
      ∧ (∀ e, (∀ i, e ≠ .unsorted i) →
          (ofBindings bindings = .error e ↔ (∀ i, ¬ OutOfOrder bindings i)
            ∧ ∃ before b after, bindings = before ++ b :: after ∧ Flaw b e ∧ ∀ c ∈ before, ∀ e', ¬ Flaw c e'))
      ∧ ∀ l, ofBindings bindings = .ok l → l.bindings = bindings
        ∧ (∀ (i j : Nat) (a b : Binding), bindings[i]? = some a → bindings[j]? = some b → a.key = b.key → i = j)
        ∧ (∀ key answer, (l.lookup key).map (fun b => (b.usage, b.target)) = some answer
            ↔ ∃ b ∈ bindings, b.key = key ∧ (b.usage, b.target) = answer)
        ∧ ∀ key, l.lookup key = none ↔ ∀ b ∈ bindings, b.key ≠ key := by
  refine ⟨?_, ?_, ?_, ?_⟩
  · rw [← firstError?_eq_none_iff]
    constructor
    · rintro ⟨l, hl⟩
      exact (ofBindings_eq_ok_iff.mp hl).1
    · intro hnone
      exact ⟨⟨bindings, hnone⟩, ofBindings_eq_ok_iff.mpr ⟨hnone, rfl⟩⟩
  · intro index
    rw [ofBindings_eq_error_iff, firstError?_eq_unsorted_iff]
  · intro e hother
    rw [ofBindings_eq_error_iff, firstError?_eq_flaw_iff hother]
  · intro l hl
    obtain ⟨-, rfl⟩ := ofBindings_eq_ok_iff.mp hl
    refine ⟨rfl, fun i j a b => l.ascending_bindings.position_unique, ?_, ?_⟩
    · intro key answer
      rw [Option.map_eq_some_iff]
      simp only [lookup_eq_some_iff, and_assoc]
    · intro key
      rw [Option.eq_none_iff_forall_ne_some]
      constructor
      · intro hnone b hb hkey
        exact hnone b (lookup_eq_some_iff.mpr ⟨hb, hkey⟩)
      · intro hnone b hb
        obtain ⟨hmem, hkey⟩ := lookup_eq_some_iff.mp hb
        exact hnone b hmem hkey

/-- A key that is there twice is refused, although no report exists for the binding before it. -/
example : ofBindings [⟨4, 4, .media⟩, ⟨4, 300, .keyboard⟩] = .error (.unsorted 1) := rfl

end Peripheral.Layout
