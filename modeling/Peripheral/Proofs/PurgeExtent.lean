import Peripheral.Proofs.ArrivalTimes
import Peripheral.Proofs.Batches
import Peripheral.Proofs.WordArithmetic

/-!
# `Peripheral.Proofs.PurgeExtent` — how far a purge goes, and what a second one does

A purge drops what can go of the longest stale prefix, all of it in one pass. Carried out a second time at the
same moment it meets no batch that it could have dropped before. What it can meet is a release that the first
purge kept because it stands behind a batch: now that release is the first update, and goes alone.

## Contents
- `Backlog.isGreatest_purgeable`: the exact extent of a purge, and its computation in words of 32 bits.
- `Backlog.purgeable_purge`: what a second purge drops.
- `Backlog.purge_purge_iff`: when it drops nothing.
- `Backlog.purge_twice_loses_release`: a release that is lost to a second purge.
-/

namespace Peripheral

variable {window now : UInt32} {l : List Pending} {c : Nat}

/-! ## The stale prefix -/

/-- The stale prefix is as long as it can be. -/
theorem isGreatest_staleCount (window now : UInt32) (l : List Pending) :
    IsGreatest {n | n ≤ l.length ∧ ∀ e ∈ l.take n, window ≤ e.age now} (staleCount window now l) := by
  have hle := staleCount_le window now l
  refine ⟨⟨hle, (le_staleCount_iff hle).mp (Nat.le_refl _)⟩, ?_⟩
  rintro n ⟨hn, hold⟩
  exact (le_staleCount_iff hn).mpr hold

/-- The first update behind stale ones is fresh, or more of them are stale. -/
theorem lt_staleCount_iff {e : Pending} (hc : c ≤ staleCount window now l) (hat : l[c]? = some e) :
    c < staleCount window now l ↔ window ≤ e.age now := by
  obtain ⟨hlt, rfl⟩ := List.getElem?_eq_some_iff.mp hat
  rw [← Nat.succ_le_iff, le_staleCount_iff hlt, Nat.succ_eq_add_one, List.take_succ_eq_append_getElem hlt]
  constructor
  · intro hold
    exact hold _ (List.mem_append_right _ List.mem_cons_self)
  · intro hage e he
    rcases List.mem_append.mp he with he | he
    · exact (le_staleCount_iff (Nat.le_of_lt hlt)).mp hc e he
    · rwa [List.mem_singleton.mp he]

/-- Behind stale updates the stale prefix is what is left of it. -/
theorem staleCount_drop (hc : c ≤ staleCount window now l) :
    staleCount window now (l.drop c) = staleCount window now l - c := by
  induction c generalizing l with
  | zero => rfl
  | succ c ih =>
    cases l with
    | nil => exact absurd hc (by simp [staleCount])
    | cons e rest =>
      rw [staleCount] at hc
      split at hc
      · omega
      · rename_i hold
        rw [List.drop_succ_cons, ih (Nat.le_of_succ_le_succ hc), staleCount, if_neg hold,
          Nat.add_sub_add_right]

namespace Backlog

/-! ## One purge -/

/-- **The extent of a purge.** Of the longest prefix of stale updates it drops as many as can go: nothing, or a
    first update that is no press, or the longest prefix in which every press has its pair and whose last update
    is such a pair. What is behind it stays as it is. Carried out in words of 32 bits, the purge comes to the
    same number, without an overflow. -/
theorem isGreatest_purgeable (b : Backlog) (hsize : b.size ≤ 65535) (now : UInt32) :
    IsGreatest {n | n ≤ b.size ∧ ∀ e ∈ b.pending.take n, b.window ≤ e.age now}
        (staleCount b.window now b.pending)
      ∧ IsGreatest {n | BatchEnd (b.pending.take (staleCount b.window now b.pending)) n}
        (b.purgeable now)
      ∧ b.purge now = { b with pending := b.pending.drop (b.purgeable now) }
      ∧ b.sweep? now = some (b.purgeable now) := by
  refine ⟨isGreatest_staleCount b.window now b.pending, ?_, rfl, ?_⟩
  · exact isGreatest_closedCount (b.pending.take (staleCount b.window now b.pending))
  · exact b.sweep?_eq_some hsize now

/-- Two interleaved pairs go, with a release between them that has no press; a press whose release is still
    fresh stays. -/
theorem isGreatest_purgeable_interleaved :
    let b : Backlog := ⟨8, 100, [⟨.keyboard, 4, 1, 0⟩, ⟨.mouse, 1, 1, 1⟩, ⟨.keyboard, 9, -1, 2⟩,
      ⟨.keyboard, 4, -1, 3⟩, ⟨.mouse, 1, -1, 4⟩, ⟨.keyboard, 5, 1, 5⟩, ⟨.keyboard, 5, -1, 180⟩]⟩
    b.size ≤ 65535
      ∧ IsGreatest {n | n ≤ b.size ∧ ∀ e ∈ b.pending.take n, b.window ≤ e.age 200} 6
      ∧ IsGreatest {n | BatchEnd (b.pending.take 6) n} 5
      ∧ b.purge 200 = { b with pending := b.pending.drop 5 }
      ∧ b.sweep? 200 = some 5 :=
  ⟨by decide, isGreatest_purgeable _ (by decide) 200⟩

/-! ## A second purge -/

/-- **What a second purge drops**: the first update that the first one left, if it is stale and no press. -/
theorem purgeable_purge (b : Backlog) (now : UInt32) :
    (b.purge now).purgeable now
      = if ∃ e, (b.purge now).pending[0]? = some e ∧ b.window ≤ e.age now ∧ e.isPress = false
        then 1 else 0 := by
  have hstale := b.purgeable_le_staleCount now
  have hsecond : (b.purge now).purgeable now
      = closedCount ((b.pending.take (staleCount b.window now b.pending)).drop (b.purgeable now)) := by
    rw [List.drop_take, ← staleCount_drop hstale]
    rfl
  have hfirst : (b.purge now).pending[0]? = b.pending[b.purgeable now]? := by
    rw [pending_purge, List.getElem?_drop, Nat.add_zero]
  rw [hsecond, hfirst]
  have hdrop := closedCount_drop_closedCount (b.pending.take (staleCount b.window now b.pending))
  -- The walk goes on exactly if the update at its end is stale.
  have hsame : (∃ e, (b.pending.take (staleCount b.window now b.pending))[b.purgeable now]? = some e
        ∧ e.isPress = false)
      ↔ ∃ e, b.pending[b.purgeable now]? = some e ∧ b.window ≤ e.age now ∧ e.isPress = false := by
    constructor
    · rintro ⟨e, hat, hnot⟩
      rw [List.getElem?_take] at hat
      split at hat
      · rename_i hlt
        exact ⟨e, hat, (lt_staleCount_iff hstale hat).mp hlt, hnot⟩
      · cases hat
    · rintro ⟨e, hat, hage, hnot⟩
      refine ⟨e, ?_, hnot⟩
      rw [List.getElem?_take, if_pos ((lt_staleCount_iff hstale hat).mpr hage)]
      exact hat
  exact hdrop.trans (ite_congr (propext hsame) (fun _ => rfl) fun _ => rfl)

/-- **When a second purge drops nothing**: exactly if the first update that the first one left, if any, is fresh
    or a press. -/
theorem purge_purge_iff (b : Backlog) (now : UInt32) :
    ((b.purge now).purgeable now = 0 ∧ (b.purge now).purge now = b.purge now)
      ↔ ∀ e, (b.purge now).pending[0]? = some e → e.age now < b.window ∨ e.isPress = true := by
  have hsecond := b.purgeable_purge now
  constructor
  · rintro ⟨hzero, -⟩ e hat
    rw [hzero] at hsecond
    split at hsecond
    · cases hsecond
    · rename_i hnone
      by_cases hfresh : e.age now < b.window
      · exact .inl hfresh
      · right
        rw [← Bool.not_eq_false]
        intro hnot
        exact hnone ⟨e, hat, UInt32.not_lt.mp hfresh, hnot⟩
  · intro hkept
    have hzero : (b.purge now).purgeable now = 0 := by
      rw [hsecond, if_neg]
      rintro ⟨e, hat, hage, hnot⟩
      rcases hkept e hat with hfresh | hpress
      · exact absurd hfresh (UInt32.not_lt.mpr hage)
      · rw [hnot] at hpress
        cases hpress
    refine ⟨hzero, ?_⟩
    rw [purge, hzero]
    rfl

/-- A pair goes, the release behind it stays, and a second purge drops it alone. -/
theorem purge_twice_loses_release :
    ∃ clock b, InUse 8 100 0 clock b ∧ clock ≤ 1000
      ∧ b.purgeable 1000 = 2 ∧ (b.purge 1000).pending = [⟨.keyboard, 5, -1, 2⟩]
      ∧ (b.purge 1000).purgeable 1000 = 1 ∧ ((b.purge 1000).purge 1000).pending = [] := by
  have hpress : InUse 8 100 0 _ _ :=
    InUse.empty.store (e := ⟨.keyboard, 4, 1, 0⟩) (Nat.zero_le _) true
  have hrelease := hpress.store (e := ⟨.keyboard, 4, -1, 1⟩) (by decide) true
  have hother := hrelease.store (e := ⟨.keyboard, 5, -1, 2⟩) (by decide) true
  exact ⟨_, _, hother, by decide, by decide, by decide, by decide, by decide⟩

end Backlog

end Peripheral
