import Peripheral.Proofs.Batches

/-!
# `Peripheral.Proofs.Purge` — what a purge drops, and what it leaves

A purge walks along the stale updates and closes a batch where the farthest pair of its presses is
reached. So every press that it drops is dropped with its pair. Counted from nothing, such updates come
to nothing: after any point among them the changes of a usage sum to zero at most. They can therefore
go without a trace as long as nothing is held.

## Contents
- `ClosedPrefix`, `closedPrefix_closedCount`: every press that a purge drops is dropped with its pair.
- `ClosedPrefix.net_drop_le`: the sums of such a prefix.
- `replay_purge`: counted from nothing, what a purge leaves comes to what was there before.
- `Backlog.Stores`, `Backlog.stores_store`: what storing an update does.
-/

namespace Peripheral

/-! ## Closed prefixes -/

/-- Every press among the first `c` updates has its pair among them. -/
def ClosedPrefix (l : List Pending) (c : Nat) : Prop :=
  ∀ i e, i < c → l[i]? = some e → e.isPress = true → ∃ j, IsPair l i j ∧ j < c

/-- **A purge drops a closed prefix.** -/
theorem closedPrefix_closedCount (stale : List Pending) : ClosedPrefix stale (closedCount stale) := by
  intro i e hi hat hpress
  obtain ⟨j, hj, hlt⟩ := (isGreatest_closedCount stale).1.allPaired i e hi hat hpress
  exact ⟨j, (pairedAt_iff hat hpress).mp hj, hlt⟩

/-! ## Sums of a closed prefix -/

/-- **After any point of a closed prefix the changes of a usage sum to zero at most.** -/
theorem ClosedPrefix.net_drop_le {l : List Pending} {c : Nat} (h : ClosedPrefix l c) (t : Target)
    (u : UInt16) (k : Nat) : net t u ((l.take c).drop k) ≤ 0 := by
  generalize hleft : c - k = left
  induction left using Nat.strongRecOn generalizing k with
  | ind left ih =>
    cases hk : (l.take c)[k]? with
    | none =>
      -- Beyond the prefix nothing is left to sum.
      rw [List.drop_eq_nil_of_le (List.getElem?_eq_none_iff.mp hk)]
      exact Int.le_refl 0
    | some e =>
      have hkc : k < c := by
        have := (List.getElem?_eq_some_iff.mp hk).1
        rw [List.length_take] at this
        omega
      have hke : l[k]? = some e := by rwa [List.getElem?_take, if_pos hkc] at hk
      have hcons : (l.take c).drop k = e :: (l.take c).drop (k + 1) := by
        obtain ⟨hlt, hat⟩ := List.getElem?_eq_some_iff.mp hk
        rw [List.drop_eq_getElem_cons hlt, hat]
      have hnext : net t u ((l.take c).drop (k + 1)) ≤ 0 := ih (c - (k + 1)) (by omega) _ rfl
      rw [hcons, net_cons]
      split
      · rename_i hsame
        obtain ⟨rfl, rfl⟩ := hsame
        by_cases hpress : e.isPress = true
        · -- The press and all up to its pair sum to zero; what is left begins behind the pair.
          obtain ⟨j, ⟨e', d, hke', hpair, rfl⟩, hjc⟩ := h k e hkc hke hpress
          obtain rfl : e = e' := Option.some.inj (hke.symm.trans hke')
          have hzero := (pairDistance?_eq_some_iff.mp hpair).2.1
          have hbehind := ih (c - (k + 1 + d + 1)) (by omega) (k + 1 + d + 1) rfl
          have htake : (l.drop (k + 1)).take (d + 1) = ((l.take c).drop (k + 1)).take (d + 1) := by
            rw [List.drop_take, List.take_take, Nat.min_eq_left (by omega)]
          have hdrop : (l.take c).drop (k + 1 + d + 1) = ((l.take c).drop (k + 1)).drop (d + 1) := by
            rw [List.drop_drop]; rfl
          have hparts : (l.take c).drop (k + 1)
              = (l.drop (k + 1)).take (d + 1) ++ (l.take c).drop (k + 1 + d + 1) := by
            rw [htake, hdrop, List.take_append_drop]
          rw [hparts, net_append]
          omega
        · -- A release adds nothing to what comes behind it.
          have hchange : e.change.toInt ≤ 0 := by
            have : ¬ (0 : Int16) < e.change := by simpa [Pending.isPress] using hpress
            rw [Int16.not_lt, Int16.le_iff_toInt_le] at this
            exact this
          omega
      · omega

/-- **Counted from nothing, a closed prefix comes to nothing.** -/
theorem ClosedPrefix.replay_take {l : List Pending} {c : Nat} (h : ClosedPrefix l c) (t : Target)
    (u : UInt16) : replay t u 0 (l.take c) = 0 := by
  refine replay_eq_zero ?_ (h.net_drop_le t u)
  have := h.net_drop_le t u 0
  rw [List.drop_zero] at this
  simpa using this

/-! ## The backlog -/

namespace Backlog

/-- What a purge drops is a closed prefix of the backlog. -/
theorem closedPrefix_purgeable (b : Backlog) (now : UInt32) :
    ClosedPrefix (b.pending.take (staleCount b.window now b.pending)) (b.purgeable now) :=
  closedPrefix_closedCount _

/-- What a purge drops comes to nothing, counted from nothing. -/
theorem replay_take_purgeable (b : Backlog) (now : UInt32) (t : Target) (u : UInt16) :
    replay t u 0 (b.pending.take (b.purgeable now)) = 0 := by
  have h := (b.closedPrefix_purgeable now).replay_take t u
  rwa [List.take_take, Nat.min_eq_left (b.purgeable_le_staleCount now)] at h

/-- **A purge is without a trace where nothing is held.** Counted from nothing, what it leaves comes to
    what was there before. -/
theorem replay_purge (b : Backlog) (now : UInt32) (t : Target) (u : UInt16) :
    replay t u 0 (b.purge now).pending = replay t u 0 b.pending := by
  have hparts := replay_append (t := t) (u := u) (n := 0) (b.pending.take (b.purgeable now))
    (b.pending.drop (b.purgeable now))
  rw [List.take_append_drop, b.replay_take_purgeable now t u] at hparts
  exact hparts.symm

/-- **What storing an update does.** The oldest `n` updates go, and what is left comes to the same,
    counted from nothing; unless updates are aged, `n` is what a purge drops. Only where a purge drops
    nothing is everything given up. -/
inductive Stores (b : Backlog) (e : Pending) (ageing : Bool) : Backlog → Receipt → Prop
  | kept {n : Nat} (hroom : b.size - n < b.capacity)
      (hsame : ∀ t u, replay t u 0 (b.pending.drop n) = replay t u 0 b.pending)
      (hpurge : ageing = false → n = b.purgeable e.time) :
      Stores b e ageing { b with pending := b.pending.drop n ++ [e] } ⟨n, false, true⟩
  | reset (hnone : b.purgeable e.time = 0) :
      Stores b e ageing { b with pending := [e] } ⟨0, true, true⟩

theorem stores_store {b : Backlog} (hcap : 0 < b.capacity) (hsize : b.size ≤ b.capacity) (e : Pending)
    (ageing : Bool) : b.Stores e ageing (b.store e ageing).1 (b.store e ageing).2 := by
  cases hfull : (b.purge e.time).isFull with
  | true =>
    have hnone := purgeable_eq_zero_of_isFull hcap hsize hfull
    rw [store_of_isFull hcap hsize hfull]
    cases hage : if ageing then b.ageing? else none with
    | some expiry =>
      -- Ageing has found something to drop, which comes to nothing like all that a purge drops.
      have hage' : ageing = true ∧ b.ageing? = some expiry := by
        cases ageing with
        | false => simp at hage
        | true => exact ⟨rfl, by simpa using hage⟩
      have hpos := purgeable_pos_of_ageing? hage'.2
      have hle := b.purgeable_le expiry
      exact .kept (by omega) (b.replay_purge expiry) (by simp [hage'.1])
    | none =>
      -- Nothing can be dropped without a trace, so everything goes.
      exact .reset hnone
  | false =>
    have hroom : b.size - b.purgeable e.time < b.capacity := by
      rw [← Bool.not_eq_true, isFull_iff, capacity_purge, size_purge] at hfull
      omega
    rw [store_of_not_isFull hfull]
    exact .kept hroom (b.replay_purge e.time) fun _ => rfl

end Backlog

end Peripheral
