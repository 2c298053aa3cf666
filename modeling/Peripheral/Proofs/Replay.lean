import Peripheral.Backlog.Lemmas

/-!
# `Peripheral.Proofs.Replay` — what waiting updates come to

Replaying updates means to count, for one usage of one report, from a first level on: every update of
the usage adds its change, and a level never goes below zero. The floor makes the replay of a list more
than the sum of its changes, and it depends on the level it starts from.

## Contents
- `Pending.raise`, `replay`: one update, and a list of them.
- `replay_append`, `replay_mono`: replays in parts, and from different levels.
- `net`, `le_replay`, `replay_eq_zero`: sums of changes, and where a replay ends.
-/

namespace Peripheral

/-- The level of a usage after an update: changed if the update is for this usage, and never below
    zero. -/
def Pending.raise (e : Pending) (t : Target) (u : UInt16) (n : Nat) : Nat :=
  if e.target = t ∧ e.usage = u then (n + e.change.toInt).toNat else n

/-- The level of a usage after a list of updates, from level `n` on. -/
def replay (t : Target) (u : UInt16) (n : Nat) (l : List Pending) : Nat :=
  l.foldl (fun n e => e.raise t u n) n

/-- The sum of the changes to a usage. -/
def net (t : Target) (u : UInt16) : List Pending → Int
  | [] => 0
  | e :: rest => (if e.target = t ∧ e.usage = u then e.change.toInt else 0) + net t u rest

variable {t : Target} {u : UInt16} {m n : Nat} {l : List Pending}

theorem Pending.raise_mono (e : Pending) (h : m ≤ n) : e.raise t u m ≤ e.raise t u n := by
  unfold Pending.raise
  split <;> omega

@[simp] theorem replay_nil : replay t u n [] = n := rfl

@[simp] theorem replay_cons (e : Pending) : replay t u n (e :: l) = replay t u (e.raise t u n) l := rfl

/-- A list is replayed part by part. -/
@[simp] theorem replay_append (first second : List Pending) :
    replay t u n (first ++ second) = replay t u (replay t u n first) second :=
  List.foldl_append

/-- A replay from a higher level ends at a higher level, or at the same one. -/
theorem replay_mono (h : m ≤ n) : replay t u m l ≤ replay t u n l := by
  induction l generalizing m n with
  | nil => exact h
  | cons e rest ih => exact ih (e.raise_mono h)

@[simp] theorem net_nil : net t u [] = 0 := rfl

@[simp] theorem net_cons (e : Pending) :
    net t u (e :: l) = (if e.target = t ∧ e.usage = u then e.change.toInt else 0) + net t u l := rfl

@[simp] theorem net_append (first second : List Pending) :
    net t u (first ++ second) = net t u first + net t u second := by
  induction first with
  | nil => simp
  | cons e rest ih => rw [List.cons_append, net_cons, net_cons, ih, Int.add_assoc]

/-- A replay ends no lower than the sum of its changes does. -/
theorem le_replay : (n : Int) + net t u l ≤ replay t u n l := by
  induction l generalizing n with
  | nil => simp
  | cons e rest ih =>
    have hraise : (n : Int) + (if e.target = t ∧ e.usage = u then e.change.toInt else 0)
        ≤ e.raise t u n := by
      unfold Pending.raise
      split <;> omega
    have hrest := @ih (e.raise t u n)
    rw [net_cons, replay_cons]
    omega

/-- A replay ends at zero if the changes take the whole level away, and no late part of them adds
    anything. -/
theorem replay_eq_zero (hn : n + net t u l ≤ 0) (hlate : ∀ k, net t u (l.drop k) ≤ 0) :
    replay t u n l = 0 := by
  induction l generalizing n with
  | nil => simpa using hn
  | cons e rest ih =>
    -- Where the floor cuts in, the level is zero, and what is left adds nothing to it.
    have hrest : net t u rest ≤ 0 := hlate 1
    have hraise : (e.raise t u n : Int) + net t u rest ≤ 0 := by
      rw [net_cons] at hn
      unfold Pending.raise
      split
      · rename_i hsame
        rw [if_pos hsame] at hn
        omega
      · rename_i hother
        rw [if_neg hother] at hn
        omega
    exact ih hraise fun k => hlate (k + 1)

end Peripheral
