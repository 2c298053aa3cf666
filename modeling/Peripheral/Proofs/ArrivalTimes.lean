import Peripheral.Proofs.Purge

/-!
# `Peripheral.Proofs.ArrivalTimes` — the times of the updates that wait

The clock wraps, so two times alone do not tell which of them came first. They do once both are counted from
a moment `base` that lies before them and less than one turn of the clock ago. Counted like that, the updates
of a backlog stand in the order of their times as long as the clock does not go back between two operations.

## Contents
- `Pending.since`, `ByArrival`, `SpanBelow`: times counted from a moment, and lists of updates by their times.
- `toNat_age`, `window_le_age_expiry_iff`: ages, and which updates are stale when another one expires.
- `Backlog.InUse`: backlogs after operations at times that do not go back.
- `InUse.orderly`: every operation keeps the updates in order and within the capacity.
-/

namespace Peripheral

/-- Milliseconds from `base` to the arrival of an update; with `base` 0 its plain time. -/
def Pending.since (e : Pending) (base : UInt32) : Nat := (e.time - base).toNat

/-- **In order of arrival.** No update came before one that stands in front of it. -/
def ByArrival (base : UInt32) (l : List Pending) : Prop :=
  l.Pairwise fun e f => e.since base ≤ f.since base

/-- Every update expires less than `limit` milliseconds after any other one came. -/
def SpanBelow (base window : UInt32) (limit : Nat) (l : List Pending) : Prop :=
  ∀ e ∈ l, ∀ f ∈ l, f.since base + window.toNat < e.since base + limit

instance (base : UInt32) (l : List Pending) : Decidable (ByArrival base l) := by
  unfold ByArrival
  infer_instance

instance (base window : UInt32) (limit : Nat) (l : List Pending) :
    Decidable (SpanBelow base window limit l) := by
  unfold SpanBelow
  infer_instance

variable {base window : UInt32} {limit clock capacity : Nat} {l : List Pending} {b b' : Backlog}
  {e f g : Pending}

/-- What stands further back came no earlier. -/
theorem ByArrival.since_le {n : Nat} (h : ByArrival base l) (he : e ∈ l.take n) (hf : f ∈ l.drop n) :
    e.since base ≤ f.since base := by
  rw [ByArrival, ← List.take_append_drop n l, List.pairwise_append] at h
  exact h.2.2 e he f hf

theorem SpanBelow.mono {more : Nat} (h : SpanBelow base window limit l) (hle : limit ≤ more) :
    SpanBelow base window more l := by
  intro e he f hf
  have := h e he f hf
  omega

/-! ## Ages -/

/-- An age is the time since the arrival. -/
theorem toNat_age {now : UInt32} (hpast : e.since base ≤ (now - base).toNat) :
    (e.age now).toNat = (now - base).toNat - e.since base := by
  have he := UInt32.toNat_lt e.time
  have hn := UInt32.toNat_lt now
  have hb := UInt32.toNat_lt base
  unfold Pending.since at hpast ⊢
  rw [Pending.age, UInt32.toNat_sub, UInt32.toNat_sub, UInt32.toNat_sub]
  rw [UInt32.toNat_sub, UInt32.toNat_sub] at hpast
  omega

/-- **What is stale when `f` expires**: what came no later than `f`, and also what came more than a window
    later, since its age is counted around the clock. -/
theorem window_le_age_expiry_iff (hspan : f.since base + window.toNat < g.since base + 4294967296) :
    window ≤ g.age (f.time + window)
      ↔ g.since base ≤ f.since base ∨ f.since base + window.toNat < g.since base := by
  have hf := UInt32.toNat_lt f.time
  have hg := UInt32.toNat_lt g.time
  have hw := UInt32.toNat_lt window
  have hb := UInt32.toNat_lt base
  unfold Pending.since at hspan ⊢
  rw [UInt32.le_iff_toNat_le, Pending.age, UInt32.toNat_sub, UInt32.toNat_add]
  rw [UInt32.toNat_sub, UInt32.toNat_sub] at hspan ⊢
  omega

/-! ## Backlogs in use -/

namespace Backlog

/-- **Backlogs in use.** From an empty backlog operations have led to this one, at times that did not go back;
    the latest of them was `clock` milliseconds after `base`. -/
inductive InUse (capacity : Nat) (window base : UInt32) : Nat → Backlog → Prop
  | empty : InUse capacity window base 0 (.empty capacity window)
  | store {clock : Nat} {b : Backlog} {e : Pending} (h : InUse capacity window base clock b)
      (hlater : clock ≤ e.since base) (ageing : Bool) :
      InUse capacity window base (e.since base) (b.store e ageing).1
  | purge {clock : Nat} {b : Backlog} {now : UInt32} (h : InUse capacity window base clock b)
      (hlater : clock ≤ (now - base).toNat) :
      InUse capacity window base (now - base).toNat (b.purge now)
  | next {clock : Nat} {b b' : Backlog} {e : Pending} (h : InUse capacity window base clock b)
      (hnext : b.next? = some (e, b')) : InUse capacity window base clock b'
  | clear {clock : Nat} {b : Backlog} (h : InUse capacity window base clock b) :
      InUse capacity window base clock b.clear

/-- What every operation keeps: the room and the window, the bound on the size, and the order of arrival. -/
structure Orderly (capacity : Nat) (window base : UInt32) (clock : Nat) (b : Backlog) : Prop where
  capacity_eq : b.capacity = capacity
  window_eq : b.window = window
  size_le : b.size ≤ b.capacity
  byArrival : ByArrival base b.pending
  past : ∀ e ∈ b.pending, e.since base ≤ clock

namespace Orderly

/-- Updates can be taken away, and the clock can go on. -/
theorem sublist {later : Nat} (h : Orderly capacity window base clock b) (hcap : b'.capacity = b.capacity)
    (hwin : b'.window = b.window) (hsub : b'.pending.Sublist b.pending) (hle : clock ≤ later) :
    Orderly capacity window base later b' where
  capacity_eq := hcap.trans h.capacity_eq
  window_eq := hwin.trans h.window_eq
  size_le := hcap ▸ Nat.le_trans hsub.length_le h.size_le
  byArrival := h.byArrival.sublist hsub
  past e he := Nat.le_trans (h.past e (hsub.subset he)) hle

/-- An update that comes later can be put behind the others. -/
theorem append (h : Orderly capacity window base clock b) (hlater : clock ≤ e.since base)
    (hroom : b.size < b.capacity) :
    Orderly capacity window base (e.since base) { b with pending := b.pending ++ [e] } where
  capacity_eq := h.capacity_eq
  window_eq := h.window_eq
  size_le := by
    rw [size, List.length_append]
    exact hroom
  byArrival := by
    refine List.pairwise_append.mpr ⟨h.byArrival, List.pairwise_singleton _ _, ?_⟩
    intro f hf g hg
    rw [List.mem_singleton.mp hg]
    exact Nat.le_trans (h.past f hf) hlater
  past := by
    intro f hf
    rcases List.mem_append.mp hf with hf | hf
    · exact Nat.le_trans (h.past f hf) hlater
    · obtain rfl := List.mem_singleton.mp hf
      exact Nat.le_refl _

theorem store (hcap : 0 < capacity) (h : Orderly capacity window base clock b)
    (hlater : clock ≤ e.since base) (ageing : Bool) :
    Orderly capacity window base (e.since base) (b.store e ageing).1 := by
  have hpos : 0 < b.capacity := h.capacity_eq.symm ▸ hcap
  have hstores := stores_store hpos h.size_le e ageing
  generalize (b.store e ageing).1 = after, (b.store e ageing).2 = receipt at hstores
  cases hstores with
  | @kept n hroom hsame hpurge =>
    have hrest : Orderly capacity window base clock { b with pending := b.pending.drop n } :=
      h.sublist rfl rfl (List.drop_sublist _ _) (Nat.le_refl clock)
    exact hrest.append hlater (by simpa [size] using hroom)
  | reset hnone =>
    have hnothing : Orderly capacity window base clock b.clear :=
      h.sublist rfl rfl (List.nil_sublist _) (Nat.le_refl clock)
    exact hnothing.append hlater hpos

end Orderly

/-- **Every operation keeps the updates in order of arrival**, and no more of them than there is room for. -/
theorem InUse.orderly (hcap : 0 < capacity) (h : InUse capacity window base clock b) :
    Orderly capacity window base clock b := by
  induction h with
  | empty =>
    refine ⟨rfl, rfl, Nat.zero_le _, List.Pairwise.nil, ?_⟩
    intro e he
    cases he
  | store h hlater ageing ih => exact ih.store hcap hlater ageing
  | purge h hlater ih => exact ih.sublist rfl rfl (List.drop_sublist _ _) hlater
  | next h hnext ih =>
    unfold next? at hnext
    split at hnext
    · cases hnext
    · rename_i hpending
      cases hnext
      refine ih.sublist rfl rfl ?_ (Nat.le_refl _)
      rw [hpending]
      exact List.sublist_cons_self _ _
  | clear h ih => exact ih.sublist rfl rfl (List.nil_sublist _) (Nat.le_refl _)

end Backlog

end Peripheral
