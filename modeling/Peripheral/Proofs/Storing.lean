import Peripheral.Proofs.PurgeExtent

/-!
# `Peripheral.Proofs.Storing` — an update is always stored, and what that costs

A new update finds its place in three ways: there is room after the stale updates went; or ageing makes room;
or all that waits is given up. The last one is taken only if nothing else helps. Ageing takes time to be the
expiry of one waiting update after the other, and when the last of them expires all are stale. So ageing fails
exactly if no part of the backlog could go even then.

## Contents
- `Backlog.reset_store_iff`: when everything is given up, in terms of the purges that are tried.
- `Backlog.ageing?_eq_none_iff`: when ageing fails.
- `Backlog.store_gives_up_last`: what storing an update does to the backlog.
-/

namespace Peripheral.Backlog

variable {b : Backlog} {base : UInt32} {e f : Pending}

/-- Everything is given up if neither the purge nor ageing makes room. -/
theorem reset_store_iff (hcap : 0 < b.capacity) (hsize : b.size ≤ b.capacity) (ageing : Bool) :
    (b.store e ageing).2.reset = true
      ↔ (b.purge e.time).isFull = true ∧ (ageing = true → b.ageing? = none) := by
  cases hfull : (b.purge e.time).isFull with
  | false =>
    rw [store_of_not_isFull hfull]
    simp
  | true =>
    rw [store_of_isFull hcap hsize hfull]
    cases ageing with
    | false => simp
    | true =>
      rw [if_pos rfl]
      cases b.ageing? with
      | none => simp
      | some expiry => simp

/-- No purge drops more than could go if everything were stale. -/
theorem purgeable_le_closedCount (b : Backlog) (now : UInt32) : b.purgeable now ≤ closedCount b.pending :=
  closedCount_take_le b.pending _

/-- When the last update expires, all of them are stale. -/
theorem purgeable_last_expiry {init : List Pending} (hlast : b.pending = init ++ [f])
    (harrival : ByArrival base b.pending) (hspan : SpanBelow base b.window 4294967296 b.pending) :
    b.purgeable (f.time + b.window) = closedCount b.pending := by
  have hf : f ∈ b.pending := by
    rw [hlast]
    exact List.mem_append_right init List.mem_cons_self
  have hstale : ∀ g ∈ b.pending, b.window ≤ g.age (f.time + b.window) := by
    intro g hg
    refine (window_le_age_expiry_iff (hspan g hg f hf)).mpr (.inl ?_)
    rw [hlast] at hg
    rw [ByArrival, hlast, List.pairwise_append] at harrival
    rcases List.mem_append.mp hg with hg | hg
    · exact harrival.2.2 g hg f List.mem_cons_self
    · obtain rfl := List.mem_singleton.mp hg
      exact Nat.le_refl _
  have hall : b.pending.length ≤ staleCount b.window (f.time + b.window) b.pending := by
    rw [le_staleCount_iff (Nat.le_refl _), List.take_length]
    exact hstale
  rw [purgeable, List.take_of_length_le hall]

/-- **Ageing fails exactly if nothing could go** even if everything were stale. -/
theorem ageing?_eq_none_iff (harrival : ByArrival base b.pending)
    (hspan : SpanBelow base b.window 4294967296 b.pending) :
    b.ageing? = none ↔ closedCount b.pending = 0 := by
  rw [ageing?, List.find?_eq_none]
  constructor
  · intro hnone
    rcases List.eq_nil_or_concat b.pending with hnil | ⟨init, f, hlast⟩
    · rw [hnil]
      rfl
    · rw [List.concat_eq_append] at hlast
      have hf : f ∈ b.pending := by
        rw [hlast]
        exact List.mem_append_right init List.mem_cons_self
      have hzero := hnone (f.time + b.window) (List.mem_map_of_mem hf)
      rw [purgeable_last_expiry hlast harrival hspan] at hzero
      simpa using hzero
  · intro hzero expiry _
    have := b.purgeable_le_closedCount expiry
    simp only [decide_eq_true_eq]
    omega

/-- **Storing an update.** It is always stored, behind what waits less the updates that were purged for it, or all
    by itself if everything was given up, which purges nothing; and never more waits than there is room for.
    Without ageing, everything is given up exactly if there is still no room after the purge. With ageing, exactly
    if there was no room to begin with, and no batch ends anywhere among the updates, so that none could go even
    if all of them were stale. -/
theorem store_gives_up_last (b : Backlog) (hcap : 0 < b.capacity) (hsize : b.size ≤ b.capacity)
    (base : UInt32) (harrival : ByArrival base b.pending)
    (hspan : SpanBelow base b.window 4294967296 b.pending) (e : Pending) (ageing : Bool) :
    (b.store e ageing).2.stored = true
      ∧ ((b.store e ageing).2.reset = false → (b.store e ageing).2.purged ≤ b.size
          ∧ (b.store e ageing).1.pending = b.pending.drop (b.store e ageing).2.purged ++ [e])
      ∧ ((b.store e ageing).2.reset = true →
          (b.store e ageing).2.purged = 0 ∧ (b.store e ageing).1.pending = [e])
      ∧ (b.store e ageing).1.size ≤ b.capacity
      ∧ (ageing = false → ((b.store e ageing).2.reset = true ↔ (b.purge e.time).isFull = true))
      ∧ (ageing = true → ((b.store e ageing).2.reset = true
          ↔ b.isFull = true ∧ ∀ c, BatchEnd b.pending c → c = 0)) := by
  have hreset := reset_store_iff (e := e) hcap hsize ageing
  have hpurged := b.purged_store_le e ageing
  have hstores := stores_store hcap hsize e ageing
  generalize (b.store e ageing).1 = after, (b.store e ageing).2 = receipt at *
  have hparts : receipt.stored = true
      ∧ (receipt.reset = false → receipt.purged ≤ b.size
          ∧ after.pending = b.pending.drop receipt.purged ++ [e])
      ∧ (receipt.reset = true → receipt.purged = 0 ∧ after.pending = [e]) ∧ after.size ≤ b.capacity := by
    cases hstores with
    | kept hroom hsame hpurge =>
      refine ⟨rfl, ?_, ?_, ?_⟩
      · intro _
        exact ⟨hpurged, rfl⟩
      · intro habsurd
        cases habsurd
      · rw [size, List.length_append, List.length_drop]
        exact hroom
    | reset hnone =>
      refine ⟨rfl, ?_, ?_, hcap⟩
      · intro habsurd
        cases habsurd
      · intro _
        exact ⟨rfl, rfl⟩
  refine ⟨hparts.1, hparts.2.1, hparts.2.2.1, hparts.2.2.2, ?_, ?_⟩
  · rintro rfl
    simpa using hreset
  · rintro rfl
    rw [hreset, ageing?_eq_none_iff harrival hspan, ← closedCount_eq_zero_iff]
    -- A purge that makes no room drops nothing, and one that drops nothing makes none.
    constructor
    · rintro ⟨hfull, hzero⟩
      rw [purge_of_purgeable_eq_zero (purgeable_eq_zero_of_isFull hcap hsize hfull)] at hfull
      exact ⟨hfull, hzero rfl⟩
    · rintro ⟨hfull, hzero⟩
      have hnone : b.purgeable e.time = 0 := by
        have := b.purgeable_le_closedCount e.time
        omega
      rw [purge_of_purgeable_eq_zero hnone]
      exact ⟨hfull, fun _ => hzero⟩

/-- Across the end of the clock's range, ageing drops a fresh pair, and the presses behind it stay. -/
theorem store_gives_up_last_wrapped :
    let b : Backlog := ⟨4, 100, [⟨.keyboard, 4, 1, 4294967290⟩, ⟨.keyboard, 4, -1, 4294967295⟩,
      ⟨.keyboard, 5, 1, 3⟩, ⟨.mouse, 1, 1, 5⟩]⟩
    let e : Pending := ⟨.keyboard, 6, 1, 9⟩
    0 < b.capacity ∧ b.size ≤ b.capacity ∧ ByArrival 4294967290 b.pending
      ∧ SpanBelow 4294967290 b.window 4294967296 b.pending
      ∧ (b.store e true).2 = ⟨2, false, true⟩ ∧ (b.store e true).1.pending = b.pending.drop 2 ++ [e]
      ∧ ¬ ∀ c, BatchEnd b.pending c → c = 0 := by
  have hstored := store_gives_up_last ⟨4, 100, [⟨.keyboard, 4, 1, 4294967290⟩,
      ⟨.keyboard, 4, -1, 4294967295⟩, ⟨.keyboard, 5, 1, 3⟩, ⟨.mouse, 1, 1, 5⟩]⟩ (by decide) (by decide)
    4294967290 (by decide +kernel) (by decide +kernel) ⟨.keyboard, 6, 1, 9⟩ true
  obtain ⟨-, hkept, -, -, -, hreset⟩ := hstored
  refine ⟨by decide, by decide, by decide +kernel, by decide +kernel, by decide +kernel,
    (hkept (by decide +kernel)).2, ?_⟩
  intro hnone
  exact absurd ((hreset rfl).mpr ⟨by decide, hnone⟩) (by decide +kernel)

end Peripheral.Backlog
