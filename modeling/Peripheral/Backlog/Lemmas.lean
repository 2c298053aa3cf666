import Peripheral.Backlog

/-!
# `Peripheral.Backlog.Lemmas` — sizes of backlogs, and storing

## Contents
- `staleCount_le`, `closedCount_le`, `purgeable_le`: a purge drops no more than there is, and only
  what is stale.
- `le_staleCount_iff`: how far the stale updates go.
- `pending_purge`, `size_purge`: what waits after a purge.
- `window_store`: storing an update leaves the window alone.
- `purged_store_le`, `size_store_le`: storing an update drops no more than there is, and lets at most
  one more wait.
- `store_of_not_isFull`, `store_of_isFull`: what storing an update does, in full.
-/

namespace Peripheral

/-- A prefix is no longer than the longest one whose members all pass a test exactly if its own members do. -/
theorem le_length_takeWhile_iff {α : Type} {p : α → Bool} {l : List α} {n : Nat} (hn : n ≤ l.length) :
    n ≤ (l.takeWhile p).length ↔ ∀ x ∈ l.take n, p x = true := by
  induction l generalizing n with
  | nil => simpa using hn
  | cons y rest ih =>
    cases n with
    | zero => simp
    | succ n =>
      have hrest := ih (Nat.le_of_succ_le_succ hn)
      cases hy : p y with
      | false => simp [hy]
      | true => simpa [hy] using hrest

theorem staleCount_eq_length_takeWhile (window now : UInt32) (l : List Pending) :
    staleCount window now l = (l.takeWhile fun e => window ≤ e.age now).length := by
  induction l with
  | nil => rfl
  | cons e rest ih =>
    unfold staleCount
    by_cases hfresh : e.age now < window
    · rw [if_pos hfresh, List.takeWhile_cons_of_neg (by simpa using hfresh), List.length_nil]
    · rw [if_neg hfresh, List.takeWhile_cons_of_pos (by simpa using hfresh), List.length_cons, ih]

theorem staleCount_le (window now : UInt32) (l : List Pending) :
    staleCount window now l ≤ l.length := by
  rw [staleCount_eq_length_takeWhile]
  exact (List.takeWhile_prefix _).length_le

/-- The stale prefix is the longest one in which every update is at least as old as the window. -/
theorem le_staleCount_iff {window now : UInt32} {l : List Pending} {n : Nat} (hn : n ≤ l.length) :
    n ≤ staleCount window now l ↔ ∀ e ∈ l.take n, window ≤ e.age now := by
  rw [staleCount_eq_length_takeWhile, le_length_takeWhile_iff hn]
  simp

/-- Every update of the stale prefix is at least as old as the window. -/
theorem window_le_age_of_mem_stale {window now : UInt32} {l : List Pending} {e : Pending}
    (h : e ∈ l.take (staleCount window now l)) : window ≤ e.age now :=
  (le_staleCount_iff (staleCount_le window now l)).mp (Nat.le_refl _) e h

theorem closedFrom_le (pos : Nat) (reach : Option Nat) (closed : Nat) (l : List Pending)
    (h : closed ≤ pos) : closedFrom pos reach closed l ≤ pos + l.length := by
  induction l generalizing pos reach closed with
  | nil => exact h
  | cons e rest ih =>
    have hlen : (e :: rest).length = rest.length + 1 := rfl
    unfold closedFrom
    split
    · split
      · omega
      · have := ih (pos + 1) (some (max (reach.getD 0) (pos + 1 + ‹Nat›))) closed (by omega)
        omega
    · split
      · have := ih (pos + 1) none (pos + 1) (Nat.le_refl _)
        omega
      · have := ih (pos + 1) reach closed (by omega)
        omega

theorem closedCount_le (stale : List Pending) : closedCount stale ≤ stale.length := by
  have := closedFrom_le 0 (some 0) 0 stale (Nat.le_refl 0)
  rwa [Nat.zero_add] at this

namespace Backlog

/-- Only stale updates are dropped. -/
theorem purgeable_le_staleCount (b : Backlog) (now : UInt32) :
    b.purgeable now ≤ staleCount b.window now b.pending :=
  Nat.le_trans (closedCount_le _) (by
    rw [List.length_take]
    exact Nat.min_le_left _ _)

theorem purgeable_le (b : Backlog) (now : UInt32) : b.purgeable now ≤ b.size :=
  Nat.le_trans (b.purgeable_le_staleCount now) (staleCount_le _ _ _)

@[simp] theorem pending_purge (b : Backlog) (now : UInt32) :
    (b.purge now).pending = b.pending.drop (b.purgeable now) := rfl

theorem size_purge (b : Backlog) (now : UInt32) :
    (b.purge now).size = b.size - b.purgeable now := by
  simp [size]

/-- The window stays as it is. -/
@[simp] theorem window_makeRoom (b : Backlog) (now : UInt32) (ageing : Bool) :
    (b.makeRoom now ageing).1.window = b.window := by
  unfold makeRoom
  dsimp only
  split
  · split <;> rfl
  · rfl

@[simp] theorem window_store (b : Backlog) (e : Pending) (ageing : Bool) :
    (b.store e ageing).1.window = b.window := by
  unfold store
  dsimp only
  split <;> exact b.window_makeRoom e.time ageing

/-- Making room keeps the latest updates, or none at all. -/
theorem size_makeRoom_le (b : Backlog) (now : UInt32) (ageing : Bool) :
    (b.makeRoom now ageing).1.size ≤ b.size := by
  have hfirst := b.size_purge now
  unfold makeRoom
  dsimp only
  split
  · split
    · rename_i expiry _
      have := (b.purge now).size_purge expiry
      dsimp only
      omega
    · exact Nat.zero_le _
  · dsimp only
    omega

/-- Making room drops no more than there is. -/
theorem purged_makeRoom_le (b : Backlog) (now : UInt32) (ageing : Bool) :
    (b.makeRoom now ageing).2.1 ≤ b.size := by
  have hfirst := b.purgeable_le now
  have hafter := b.size_purge now
  unfold makeRoom
  dsimp only
  split
  · split
    · rename_i expiry _
      have := (b.purge now).purgeable_le expiry
      dsimp only
      omega
    · exact hfirst
  · exact hfirst

/-- Storing an update drops no more than there is. -/
theorem purged_store_le (b : Backlog) (e : Pending) (ageing : Bool) :
    (b.store e ageing).2.purged ≤ b.size := by
  have hroom := b.purged_makeRoom_le e.time ageing
  unfold store
  dsimp only
  split <;> exact hroom

/-- Storing an update lets at most one more wait. -/
theorem size_store_le (b : Backlog) (e : Pending) (ageing : Bool) :
    (b.store e ageing).1.size ≤ b.size + 1 := by
  have hroom := b.size_makeRoom_le e.time ageing
  unfold store
  dsimp only
  split
  · exact Nat.le_succ_of_le hroom
  · simp only [size, List.length_append, List.length_cons, List.length_nil]
    exact Nat.succ_le_succ hroom

/-! ## Storing an update -/

theorem isFull_iff {b : Backlog} : b.isFull = true ↔ b.capacity ≤ b.size := by simp [isFull]

@[simp] theorem capacity_purge (b : Backlog) (now : UInt32) : (b.purge now).capacity = b.capacity := rfl

/-- Ageing ends at a purge that drops something. -/
theorem purgeable_pos_of_ageing? {b : Backlog} {expiry : UInt32} (h : b.ageing? = some expiry) :
    0 < b.purgeable expiry := by
  simpa using List.find?_some h

/-- A purge that drops anything makes room, so one that does not make room drops nothing. -/
theorem purgeable_eq_zero_of_isFull {b : Backlog} (hcap : 0 < b.capacity) (hsize : b.size ≤ b.capacity)
    {now : UInt32} (hfull : (b.purge now).isFull = true) : b.purgeable now = 0 := by
  rw [isFull_iff, capacity_purge, size_purge] at hfull
  omega

theorem purge_of_purgeable_eq_zero {b : Backlog} {now : UInt32} (h : b.purgeable now = 0) :
    b.purge now = b := by
  rw [purge, h]
  rfl

/-- Where a purge makes room, the update is stored behind what is left. -/
theorem store_of_not_isFull {b : Backlog} {e : Pending} (hroom : (b.purge e.time).isFull = false)
    (ageing : Bool) :
    b.store e ageing = ({ b with pending := b.pending.drop (b.purgeable e.time) ++ [e] },
      ⟨b.purgeable e.time, false, true⟩) := by
  simp only [store, makeRoom, hroom, Bool.false_eq_true, if_false]
  rfl

/-- **Where a purge makes no room**, the update is stored behind what the first successful ageing leaves, or all
    by itself. -/
theorem store_of_isFull {b : Backlog} {e : Pending} (hcap : 0 < b.capacity) (hsize : b.size ≤ b.capacity)
    (hfull : (b.purge e.time).isFull = true) (ageing : Bool) :
    b.store e ageing = match if ageing then b.ageing? else none with
      | some expiry => ({ b with pending := b.pending.drop (b.purgeable expiry) ++ [e] },
          ⟨b.purgeable expiry, false, true⟩)
      | none => ({ b with pending := [e] }, ⟨0, true, true⟩) := by
  have hnone := purgeable_eq_zero_of_isFull hcap hsize hfull
  have hsame := purge_of_purgeable_eq_zero hnone
  rw [hsame] at hfull
  cases hage : if ageing then b.ageing? else none with
  | some expiry =>
    -- Ageing drops something, so there is room now.
    have hpos : 0 < b.purgeable expiry := by
      split at hage
      · exact purgeable_pos_of_ageing? hage
      · cases hage
    have hroom : (b.purge expiry).isFull = false := by
      rw [← Bool.not_eq_true]
      intro hstill
      have := purgeable_eq_zero_of_isFull hcap hsize hstill
      omega
    simp only [store, makeRoom, hnone, hsame, hfull, if_true, hage, hroom, Bool.false_eq_true, if_false,
      Nat.zero_add]
    rfl
  | none =>
    have hroom : b.clear.isFull = false := by
      rw [← Bool.not_eq_true, isFull_iff]
      exact Nat.not_le.mpr hcap
    simp only [store, makeRoom, hnone, hsame, hfull, if_true, hage, hroom, Bool.false_eq_true, if_false]
    rfl

end Backlog

end Peripheral
