import Mathlib.Tactic.Ring
import Peripheral.Target

/-!
# `Peripheral.Proofs.Traffic` — reports on the way of one session, in the order in which they were sent

The link waits for one acknowledgement and then counts as idle, however many reports are still on the
way. A report that finds none of its kind among them is followed by a companion, and nothing but an
acknowledgement that comes while the link is idle makes up for it. So the number of reports on the way
grows by one whenever a kind has run out, and for a kind to run out, every report ahead of its last one
has to be acknowledged: with `n` reports on the way that takes `n` acknowledgements, and the number grows
with the square root of what has been acknowledged.

## Contents
- `companionsOf`, `batch`: the reports that are sent together.
- `Traffic`, `Traffic.Step`: what a session has sent and heard.
- `lastPlace`, `cover`: how many acknowledgements it takes for a kind to run out.
- `Traffic.Lawful`, `Lawful.step`: the balance of companions, and the price of their number.
-/

namespace Peripheral

/-! ## Batches -/

/-- The mouse reports that follow a report of a kind, if these are the reports on the way. -/
def companionsOf (owed : List Target) : Target → List Target
  | .keyboard =>
    if .keyboard ∈ owed then [] else if .mouse ∈ owed then [.mouse] else [.mouse, .mouse]
  | .mouse => if .mouse ∈ owed then [] else [.mouse]
  | .media => []

/-- A report of a kind with those that follow it. -/
def batch (owed : List Target) (t : Target) : List Target := t :: companionsOf owed t

theorem mem_companionsOf {owed : List Target} {t u : Target} (h : u ∈ companionsOf owed t) : u = .mouse := by
  cases t with
  | keyboard =>
    rw [companionsOf] at h
    split at h
    · cases h
    · split at h <;> simpa using h
  | mouse =>
    rw [companionsOf] at h
    split at h
    · cases h
    · simpa using h
  | media => cases h

/-! ## Traffic -/

/-- What a session has sent and heard: the kinds of the reports that are not acknowledged yet, oldest
    first, whether the link waits for one of them, how many companions were sent, how many
    acknowledgements were heard, and how many of these found the link idle. -/
structure Traffic where
  owed : List Target
  busy : Bool
  companions : Nat
  heard : Nat
  spare : Nat
  deriving DecidableEq, Repr

namespace Traffic

/-- Nothing was sent yet. -/
def blank : Traffic := ⟨[], false, 0, 0, 0⟩

/-- **How traffic goes on** if reports are acknowledged in the order in which they were sent. A report that
    is acknowledged still counts for the companions of those that are sent in the same moment. -/
inductive Step : Traffic → Traffic → Prop
  | quiet {l : Traffic} : Step l l
  | fresh {l : Traffic} : Step l blank
  | send {owed : List Target} {c n s : Nat} {t : Target} (ht : t ≠ .media) :
      Step ⟨owed, false, c, n, s⟩
        ⟨owed ++ batch owed t, true, c + (companionsOf owed t).length, n, s⟩
  | spare {x : Target} {rest : List Target} {c n s : Nat} :
      Step ⟨x :: rest, false, c, n, s⟩ ⟨rest, false, c, n + 1, s + 1⟩
  | rest {x : Target} {rest : List Target} {c n s : Nat} :
      Step ⟨x :: rest, true, c, n, s⟩ ⟨rest, false, c, n + 1, s⟩
  | next {x : Target} {rest : List Target} {c n s : Nat} {t : Target} (ht : t ≠ .media) :
      Step ⟨x :: rest, true, c, n, s⟩
        ⟨rest ++ batch (x :: rest) t, true, c + (companionsOf (x :: rest) t).length, n + 1, s⟩

end Traffic

/-! ## How long a kind lasts -/

/-- Place of the last report of a kind, counted from one, or zero without one: as many
    acknowledgements does it take for the kind to run out. -/
def lastPlace (t : Target) : List Target → Nat
  | [] => 0
  | x :: rest => if t ∈ rest then lastPlace t rest + 1 else if x = t then 1 else 0

theorem lastPlace_le_length (t : Target) (l : List Target) : lastPlace t l ≤ l.length := by
  induction l with
  | nil => exact Nat.le_refl 0
  | cons x rest ih =>
    rw [lastPlace, List.length_cons]
    repeat' split
    all_goals omega

theorem lastPlace_eq_zero {t : Target} {l : List Target} (h : t ∉ l) : lastPlace t l = 0 := by
  cases l with
  | nil => rfl
  | cons x rest =>
    rw [List.mem_cons, not_or] at h
    rw [lastPlace, if_neg h.2, if_neg fun hx => h.1 hx.symm]

/-- One acknowledgement brings every report one place forward. -/
theorem lastPlace_cons_le (t x : Target) (l : List Target) : lastPlace t (x :: l) ≤ lastPlace t l + 1 := by
  rw [lastPlace]
  repeat' split
  all_goals omega

/-- Reports behind the others put the last place off, or leave it where it was. -/
theorem lastPlace_append (t : Target) (l m : List Target) :
    lastPlace t (l ++ m) = if t ∈ m then l.length + lastPlace t m else lastPlace t l := by
  induction l with
  | nil =>
    by_cases hm : t ∈ m
    · simp [hm]
    · simp [hm, lastPlace, lastPlace_eq_zero hm]
  | cons x rest ih =>
    rw [List.cons_append, lastPlace, ih, lastPlace]
    by_cases hm : t ∈ m
    · simp only [List.mem_append, hm, or_true, if_true, List.length_cons]
      omega
    · simp only [List.mem_append, hm, or_false, if_false]

theorem lastPlace_le_append (t : Target) (l m : List Target) : lastPlace t l ≤ lastPlace t (l ++ m) := by
  rw [lastPlace_append]
  have hle := lastPlace_le_length t l
  split <;> omega

/-- If all reports are of one kind, it lasts until none is left. -/
theorem lastPlace_of_forall_eq {t : Target} {l : List Target} (h : ∀ u ∈ l, u = t) :
    lastPlace t l = l.length := by
  induction l with
  | nil => rfl
  | cons x rest ih =>
    obtain ⟨hx, hrest⟩ := List.forall_mem_cons.mp h
    rw [lastPlace, ih hrest, if_pos hx]
    cases rest with
    | nil => rfl
    | cons y ys =>
      obtain ⟨hy, -⟩ := List.forall_mem_cons.mp hrest
      rw [if_pos (hy ▸ List.mem_cons_self)]
      rfl

/-- How far the next companion is off, in acknowledgements. A keyboard report brings one of its own and
    leaves a mouse report as the last one, which is worth one acknowledgement more. -/
def cover (owed : List Target) : Nat := min (lastPlace .keyboard owed + 1) (lastPlace .mouse owed)

theorem cover_le_length (owed : List Target) : cover owed ≤ owed.length := by
  have hle := lastPlace_le_length .mouse owed
  unfold cover
  omega

theorem cover_cons_le (x : Target) (owed : List Target) : cover (x :: owed) ≤ cover owed + 1 := by
  have hkeyboard := lastPlace_cons_le .keyboard x owed
  have hmouse := lastPlace_cons_le .mouse x owed
  unfold cover
  omega

theorem cover_le_append (owed more : List Target) : cover owed ≤ cover (owed ++ more) := by
  have hkeyboard := lastPlace_le_append .keyboard owed more
  have hmouse := lastPlace_le_append .mouse owed more
  unfold cover
  omega

namespace Traffic

/-! ## Balance and price -/

/-- What holds of the traffic of a session:
    - `kinds`: there are keyboard and mouse reports only;
    - `balance`: reports on the way are the one that the link waits for and the companions, without those
      that were made up for;
    - `price`: with `k` reports on the way that nobody waits for, the acknowledgements that were heard
      and those that are due before the next companion come to `1 + 2 + … + k`, but for one. -/
structure Lawful (l : Traffic) : Prop where
  kinds : ∀ t ∈ l.owed, t ≠ .media
  balance : l.owed.length + l.spare = l.busy.toNat + l.companions
  price : ∃ k, k + l.busy.toNat = l.owed.length ∧ k * (k + 1) ≤ 2 * (l.heard + 1 + cover l.owed)

theorem lawful_blank : blank.Lawful where
  kinds := by simp [blank]
  balance := rfl
  price := ⟨0, rfl, Nat.zero_le _⟩

/-- **What a batch costs.** `before` are the reports on the way as the batch is sent, of which `rest` stay on
    the way. -/
theorem price_batch {before rest : List Target} {t : Target} {heard : Nat}
    (hkinds : ∀ u ∈ before, u ≠ .media) (hsub : ∀ u ∈ rest, u ∈ before) (ht : t ≠ .media)
    (h : rest.length * (rest.length + 1) ≤ 2 * (heard + 1 + cover rest)) :
    (rest.length + (companionsOf before t).length)
        * (rest.length + (companionsOf before t).length + 1)
      ≤ 2 * (heard + 1 + cover (rest ++ batch before t)) := by
  -- Without companions nothing grows, and more reports put the next companion off.
  have hnone : companionsOf before t = [] → (rest.length + (companionsOf before t).length)
      * (rest.length + (companionsOf before t).length + 1)
        ≤ 2 * (heard + 1 + cover (rest ++ batch before t)) := by
    intro hnil
    have hcover := cover_le_append rest (batch before t)
    rw [hnil, List.length_nil, Nat.add_zero]
    omega
  have hgrow : (rest.length + 1) * (rest.length + 1 + 1)
      = rest.length * (rest.length + 1) + 2 * (rest.length + 1) := by ring
  cases t with
  | media => exact absurd rfl ht
  | mouse =>
    by_cases hmouse : Target.mouse ∈ before
    · exact hnone (if_pos hmouse)
    · -- Only keyboard reports are on the way, so a companion was due.
      have hcover : cover rest = 0 := by
        rw [cover, lastPlace_eq_zero fun hm => hmouse (hsub _ hm), Nat.min_zero]
      have hall : lastPlace .keyboard rest = rest.length := by
        apply lastPlace_of_forall_eq
        intro u hu
        cases u with
        | keyboard => rfl
        | mouse => exact absurd (hsub _ hu) hmouse
        | media => exact absurd rfl (hkinds _ (hsub _ hu))
      have hafter : cover (rest ++ batch before .mouse) = rest.length + 1 := by
        simp [cover, batch, companionsOf, hmouse, lastPlace_append, hall, lastPlace]
      rw [hafter, show (companionsOf before .mouse).length = 1 by simp [companionsOf, hmouse], hgrow]
      omega
  | keyboard =>
    by_cases hkeyboard : Target.keyboard ∈ before
    · exact hnone (if_pos hkeyboard)
    · by_cases hmouse : Target.mouse ∈ before
      · -- Only mouse reports are on the way.
        have hcover : cover rest ≤ 1 := by
          rw [cover, lastPlace_eq_zero fun hk => hkeyboard (hsub _ hk)]
          exact Nat.min_le_left _ _
        have hafter : cover (rest ++ batch before .keyboard) = rest.length + 2 := by
          simp [cover, batch, companionsOf, hkeyboard, hmouse, lastPlace_append, lastPlace]
        rw [hafter, show (companionsOf before .keyboard).length = 1 by
          simp [companionsOf, hkeyboard, hmouse], hgrow]
        omega
      · -- Nothing is on the way.
        have hrest : rest = [] := by
          rw [List.eq_nil_iff_forall_not_mem]
          intro u hu
          cases u with
          | keyboard => exact hkeyboard (hsub _ hu)
          | mouse => exact hmouse (hsub _ hu)
          | media => exact hkinds _ (hsub _ hu) rfl
        have hafter : cover (rest ++ batch before .keyboard) = 2 := by
          simp [cover, batch, companionsOf, hkeyboard, hmouse, lastPlace, hrest]
        rw [hafter, show (companionsOf before .keyboard).length = 2 by
          simp [companionsOf, hkeyboard, hmouse], hrest, List.length_nil]
        omega

theorem kinds_batch {before rest : List Target} {t : Target} (hrest : ∀ u ∈ rest, u ≠ .media)
    (ht : t ≠ .media) : ∀ u ∈ rest ++ batch before t, u ≠ .media := by
  intro u hu
  rcases List.mem_append.mp hu with hu | hu
  · exact hrest u hu
  · rcases List.mem_cons.mp hu with rfl | hu
    · exact ht
    · rw [mem_companionsOf hu]
      decide

/-- **One step keeps to the balance and to the price.** -/
theorem Lawful.step {l l' : Traffic} (h : l.Lawful) (hstep : l.Step l') : l'.Lawful := by
  cases hstep with
  | quiet => exact h
  | fresh => exact lawful_blank
  | @send owed c n s t ht =>
    have hbalance := h.balance
    obtain ⟨k, hk, hprice⟩ := h.price
    simp only [Bool.toNat_false, Nat.add_zero] at hk hbalance
    subst hk
    refine ⟨kinds_batch h.kinds ht, ?_, owed.length + (companionsOf owed t).length, ?_,
      price_batch h.kinds (fun _ hu => hu) ht hprice⟩
    · simp only [List.length_append, batch, List.length_cons, Bool.toNat_true]
      omega
    · simp only [List.length_append, batch, List.length_cons, Bool.toNat_true]
      omega
  | @spare x rest c n s =>
    have hbalance := h.balance
    obtain ⟨k, hk, hprice⟩ := h.price
    have hcover := cover_cons_le x rest
    simp only [Bool.toNat_false, Nat.add_zero, List.length_cons] at hk hbalance
    subst hk
    refine ⟨fun u hu => h.kinds u (List.mem_cons_of_mem _ hu), ?_, rest.length, rfl, ?_⟩
    · simp only [Bool.toNat_false]
      omega
    · have hfewer : rest.length * (rest.length + 1) ≤ (rest.length + 1) * (rest.length + 1 + 1) :=
        Nat.mul_le_mul (by omega) (by omega)
      dsimp only at hprice ⊢
      omega
  | @rest x rest c n s =>
    have hbalance := h.balance
    obtain ⟨k, hk, hprice⟩ := h.price
    have hcover := cover_cons_le x rest
    simp only [Bool.toNat_true, List.length_cons, Nat.add_right_cancel_iff] at hk hbalance
    subst hk
    refine ⟨fun u hu => h.kinds u (List.mem_cons_of_mem _ hu), ?_, rest.length, rfl, ?_⟩
    · simp only [Bool.toNat_false]
      omega
    · dsimp only at hprice ⊢
      omega
  | @next x rest c n s t ht =>
    have hbalance := h.balance
    obtain ⟨k, hk, hprice⟩ := h.price
    have hcover := cover_cons_le x rest
    simp only [Bool.toNat_true, List.length_cons, Nat.add_right_cancel_iff] at hk hbalance
    subst hk
    refine ⟨kinds_batch (fun u hu => h.kinds u (List.mem_cons_of_mem _ hu)) ht, ?_,
      rest.length + (companionsOf (x :: rest) t).length, ?_,
      price_batch h.kinds (fun u hu => List.mem_cons_of_mem _ hu) ht ?_⟩
    · simp only [List.length_append, batch, List.length_cons, Bool.toNat_true]
      omega
    · simp only [List.length_append, batch, List.length_cons, Bool.toNat_true]
      omega
    · dsimp only at hprice ⊢
      omega

/-- **The number of reports on the way grows with the square root of the acknowledgements.** -/
theorem Lawful.length_mul_length_le {l : Traffic} (h : l.Lawful) :
    l.owed.length * l.owed.length ≤ 3 * l.owed.length + 2 * (l.heard + 1) := by
  obtain ⟨k, hk, hprice⟩ := h.price
  have hcover := cover_le_length l.owed
  have hbusy : l.busy.toNat ≤ 1 := Bool.toNat_le _
  rcases Nat.le_one_iff_eq_zero_or_eq_one.mp hbusy with hidle | hwaits
  · rw [hidle, Nat.add_zero] at hk
    subst hk
    rw [Nat.mul_add] at hprice
    omega
  · rw [hwaits] at hk
    have hsquare : (k + 1) * (k + 1) = k * (k + 1) + (k + 1) := by ring
    rw [← hk] at hcover ⊢
    omega

end Traffic

end Peripheral
