import Peripheral.Backlog.Lemmas

/-!
# `Peripheral.Proofs.WordArithmetic` — a purge in words of 32 bits

`Backlog.purgeable` counts positions and sums up changes without a bound. On the device both are words of 32
bits, positions start anew after every batch that goes, and an operation whose result does not fit brings
everything to a stop. The sweep below is the purge as it is carried out there. As long as no more than 65535
updates wait, none of its operations overflows, and it drops what the purge drops.

## Contents
- `addWord?`, `addPlace?`, `subPlace?`: sums and positions in words, `none` where they do not fit.
- `pairPlace?`, `look`, `sweep?`: the walk along the stale updates, batch by batch.
- `pairPlace?_eq_some`, `sweep?_eq_some`: the walk does not overflow, and where it ends.
- `Backlog.sweep?_eq_some`: the same of a whole backlog.
-/

namespace Peripheral

/-! ## Words -/

/-- The sum of two signed words, unless it overflows. -/
def addWord? (a b : Int) : Option Int :=
  if -2147483648 ≤ a + b ∧ a + b ≤ 2147483647 then some (a + b) else none

/-- The sum of two positions, unless it overflows. -/
def addPlace? (a b : Nat) : Option Nat := if a + b ≤ 4294967295 then some (a + b) else none

/-- The difference of two positions, unless it falls below zero. -/
def subPlace? (a b : Nat) : Option Nat := if b ≤ a then some (a - b) else none

theorem addPlace?_eq_some {a b c : Nat} :
    addPlace? a b = some c ↔ a + b ≤ 4294967295 ∧ c = a + b := by
  unfold addPlace?
  split
  · rename_i h
    simp [h, eq_comm]
  · rename_i h
    simp [h]

theorem subPlace?_eq_some {a b c : Nat} : subPlace? a b = some c ↔ b ≤ a ∧ c = a - b := by
  unfold subPlace?
  split
  · rename_i h
    simp [h, eq_comm]
  · rename_i h
    simp [h]

/-! ## The walk -/

/-- The place of the pair of a press: the first update at which the changes to its usage, of which `sum` is
    the part so far, sum to zero. The updates begin at `place`. -/
def pairPlace? (e : Pending) (sum : Int) (place : Nat) : List Pending → Option (Option Nat)
  | [] => some none
  | f :: rest =>
    if e.sameUsage f then
      match addWord? sum f.change.toInt, addPlace? place 1 with
      | some sum, some next => if sum = 0 then some (some place) else pairPlace? e sum next rest
      | _, _ => none
    else
      match addPlace? place 1 with
      | some next => pairPlace? e sum next rest
      | none => none

/-- What it comes to to look at an update. -/
inductive Look
  /-- An operation overflows. -/
  | overflow
  /-- The walk ends here. -/
  | stop
  /-- It goes on, with the last place that the batch under way needs. -/
  | go (reach : Option Nat)
  deriving DecidableEq, Repr

/-- Look at the update at place `cur`; the first `fresh` updates are stale. -/
def look (l : List Pending) (fresh : Nat) (reach : Option Nat) (cur : Nat) : Look :=
  match l[cur]? with
  | none => .stop
  | some e =>
    if e.isPress then
      match pairPlace? e e.change.toInt (cur + 1) ((l.take fresh).drop (cur + 1)) with
      | none => .overflow
      | some none => .stop
      | some (some pair) => .go (some (max (reach.getD 0) pair))
    else .go reach

/-- Walk along the stale updates, drop every batch as soon as it is closed, and count what was dropped.
    `none` means that an operation overflowed. -/
def sweep? (l : List Pending) (fresh : Nat) (reach : Option Nat) (cur purged : Nat) : Option Nat :=
  if _hcur : cur < fresh then
    match look l fresh reach cur with
    | .overflow => none
    | .stop => some purged
    | .go reach =>
      match _hnext : addPlace? cur 1 with
      | none => none
      | some next =>
        if reach = some cur then
          match addPlace? purged next, _hfresh : subPlace? fresh next with
          | some purged', some fresh' => sweep? (l.drop next) fresh' none 0 purged'
          | _, _ => none
        else sweep? l fresh reach next purged
  else some purged
termination_by fresh - cur
decreasing_by
  · have hnext' := (addPlace?_eq_some.mp _hnext).2
    have hfresh' := (subPlace?_eq_some.mp _hfresh).2
    omega
  · have hnext' := (addPlace?_eq_some.mp _hnext).2
    omega

/-- The sweep of a backlog at `now`. -/
def Backlog.sweep? (b : Backlog) (now : UInt32) : Option Nat :=
  Peripheral.sweep? b.pending (staleCount b.window now b.pending) (some 0) 0 0

/-! ## No overflow -/

/-- A change has 16 bits. -/
theorem change_bounds (f : Pending) : -32768 ≤ f.change.toInt ∧ f.change.toInt ≤ 32767 := by
  have hle := Int16.toInt_le f.change
  have hge := Int16.le_toInt f.change
  exact ⟨hge, hle⟩

/-- **The search for a pair does not overflow**, and finds the pair. -/
theorem pairPlace?_eq_some {e : Pending} {sum : Int} {place : Nat} {rest : List Pending}
    (hsum : sum ≠ 0) (hbound : sum.natAbs + 32768 * rest.length ≤ 2147483647)
    (hplace : place + rest.length ≤ 4294967295) :
    pairPlace? e sum place rest
      = some (((runningLevels e sum rest).findIdx? fun level => level = 0).map (place + ·)) := by
  induction rest generalizing sum place with
  | nil => rfl
  | cons f rest ih =>
    obtain ⟨hlow, hhigh⟩ := change_bounds f
    rw [List.length_cons] at hbound hplace
    have hnext : addPlace? place 1 = some (place + 1) :=
      addPlace?_eq_some.mpr ⟨by omega, rfl⟩
    have hshift : ∀ o : Option Nat, (o.map (· + 1)).map (place + ·) = o.map (place + 1 + ·) := by
      intro o
      cases o with
      | none => rfl
      | some d => simp only [Option.map_some]; congr 1; omega
    unfold pairPlace? runningLevels
    rw [hnext]
    split
    · have hword : addWord? sum f.change.toInt = some (sum + f.change.toInt) := by
        rw [addWord?, if_pos]
        omega
      rw [hword, List.findIdx?_cons]
      dsimp only
      by_cases hzero : sum + f.change.toInt = 0
      · simp [hzero]
      · rw [if_neg hzero, ih hzero (by omega) (by omega)]
        simp [hzero, hshift]
    · dsimp only
      rw [ih hsum (by omega) (by omega), List.findIdx?_cons]
      simp [hsum, hshift]

/-- The update at place `cur` of the stale ones, and those behind it. -/
theorem drop_take_eq_cons {l : List Pending} {fresh cur : Nat} (hcur : cur < fresh)
    (hfresh : fresh ≤ l.length) :
    ∃ e, l[cur]? = some e ∧ (l.take fresh).drop cur = e :: (l.take fresh).drop (cur + 1) := by
  have hlen : cur < (l.take fresh).length := by
    rw [List.length_take]
    omega
  refine ⟨l[cur], List.getElem?_eq_getElem (by omega), ?_⟩
  rw [List.drop_eq_getElem_cons hlen, List.getElem_take]

/-- Looking at a press finds its pair, or ends the walk. -/
theorem look_of_isPress {l : List Pending} {fresh cur : Nat} (reach : Option Nat) {e : Pending}
    (hat : l[cur]? = some e) (hpress : e.isPress = true) (hcur : cur < fresh) (hfresh : fresh ≤ l.length)
    (hlen : l.length ≤ 65535) :
    look l fresh reach cur
      = match pairDistance? e ((l.take fresh).drop (cur + 1)) with
        | none => .stop
        | some d => .go (some (max (reach.getD 0) (cur + 1 + d))) := by
  obtain ⟨hlow, hhigh⟩ := change_bounds e
  have hrest : ((l.take fresh).drop (cur + 1)).length = fresh - (cur + 1) := by
    rw [List.length_drop, List.length_take, Nat.min_eq_left hfresh]
  have hpos : e.change.toInt ≠ 0 := by
    have hlt : (0 : Int16) < e.change := by simpa [Pending.isPress] using hpress
    rw [Int16.lt_iff_toInt_lt, Int16.toInt_zero] at hlt
    omega
  unfold look
  rw [hat]
  dsimp only
  rw [if_pos hpress, pairPlace?_eq_some hpos (by omega) (by omega), pairDistance?]
  cases (runningLevels e e.change.toInt ((l.take fresh).drop (cur + 1))).findIdx? fun level => level = 0
  all_goals rfl

theorem look_of_not_isPress {l : List Pending} {cur : Nat} (fresh : Nat) (reach : Option Nat) {e : Pending}
    (hat : l[cur]? = some e) (hpress : ¬ e.isPress = true) : look l fresh reach cur = .go reach := by
  unfold look
  rw [hat]
  exact if_neg hpress

/-- Where the walk goes on and no operation overflows, a batch that is closed here is dropped and the walk
    begins anew behind it; or else it goes on with the next update. -/
theorem sweep?_of_go {l : List Pending} {fresh cur purged : Nat} {reach reach' : Option Nat}
    (hcur : cur < fresh) (hlook : look l fresh reach cur = .go reach')
    (hplaces : purged + (cur + 1) ≤ 4294967295) :
    sweep? l fresh reach cur purged
      = if reach' = some cur then
          sweep? (l.drop (cur + 1)) (fresh - (cur + 1)) none 0 (purged + (cur + 1))
        else sweep? l fresh reach' (cur + 1) purged := by
  have hnext : addPlace? cur 1 = some (cur + 1) := addPlace?_eq_some.mpr ⟨by omega, rfl⟩
  have hpurged : addPlace? purged (cur + 1) = some (purged + (cur + 1)) :=
    addPlace?_eq_some.mpr ⟨hplaces, rfl⟩
  have hfresh : subPlace? fresh (cur + 1) = some (fresh - (cur + 1)) :=
    subPlace?_eq_some.mpr ⟨hcur, rfl⟩
  rw [sweep?, dif_pos hcur, hlook]
  dsimp only
  split
  · rename_i hnone
    rw [hnext] at hnone
    cases hnone
  · rename_i next hsome
    rw [hnext] at hsome
    cases hsome
    split
    · split
      · rename_i purged' fresh' hpurged' hfresh'
        rw [hpurged] at hpurged'
        rw [hfresh] at hfresh'
        cases hpurged'
        cases hfresh'
        rfl
      · rename_i hnone
        exact absurd hfresh (hnone _ _ hpurged)
    · rfl

/-- **The sweep does not overflow**, and ends where the walk along the whole stale list does. What the walk
    keeps as one position is split here in what was dropped and the place among what is left. -/
theorem sweep?_eq_some {l : List Pending} {fresh cur purged : Nat} {reach : Option Nat}
    (hcur : cur ≤ fresh) (hfresh : fresh ≤ l.length) (hlen : purged + l.length ≤ 65535) :
    sweep? l fresh reach cur purged
      = some (closedFrom (purged + cur) (reach.map (purged + ·)) purged ((l.take fresh).drop cur)) := by
  generalize hleft : fresh - cur = left
  induction left generalizing l fresh cur purged reach with
  | zero =>
    -- No stale update is left.
    have hnil : (l.take fresh).drop cur = [] := by
      rw [List.drop_eq_nil_iff, List.length_take]
      omega
    rw [sweep?, dif_neg (by omega), hnil]
    rfl
  | succ left ih =>
    have hlt : cur < fresh := by omega
    obtain ⟨e, hat, hcons⟩ := drop_take_eq_cons hlt hfresh
    have hgo : ∀ reach' : Option Nat, sweep? l fresh reach' (cur + 1) purged
        = some (closedFrom (purged + cur + 1) (reach'.map (purged + ·)) purged
          ((l.take fresh).drop (cur + 1))) := by
      intro reach'
      rw [ih (by omega) hfresh hlen (by omega), Nat.add_assoc]
    rw [hcons, closedFrom]
    by_cases hpress : e.isPress = true
    · have hlook := look_of_isPress reach hat hpress hlt hfresh (by omega)
      rw [if_pos hpress]
      cases hpair : pairDistance? e ((l.take fresh).drop (cur + 1)) with
      | none =>
        rw [hpair] at hlook
        rw [sweep?, dif_pos hlt, hlook]
      | some d =>
        -- The pair lies ahead, so no batch is closed here.
        rw [hpair] at hlook
        have hahead : (some (max (reach.getD 0) (cur + 1 + d))) ≠ some cur := by
          intro heq
          have := Option.some.inj heq
          omega
        have hreach : (some (max (reach.getD 0) (cur + 1 + d))).map (purged + ·)
            = some (max ((reach.map (purged + ·)).getD 0) (purged + cur + 1 + d)) := by
          cases reach with
          | none => simp; omega
          | some r => simp; omega
        rw [sweep?_of_go hlt hlook (by omega), if_neg hahead, hgo, hreach]
    · have hlook := look_of_not_isPress fresh reach hat hpress
      rw [sweep?_of_go hlt hlook (by omega), if_neg hpress]
      by_cases hend : reach = some cur
      · have hrest : ((l.drop (cur + 1)).take (fresh - (cur + 1))).drop 0
            = (l.take fresh).drop (cur + 1) := by
          rw [List.drop_zero, List.drop_take]
        rw [if_pos hend, hend, Option.map_some, if_pos rfl,
          ih (by omega) (by rw [List.length_drop]; omega) (by rw [List.length_drop]; omega) (by omega),
          hrest]
        rfl
      · have hother : reach.map (purged + ·) ≠ some (purged + cur) := by
          intro heq
          obtain ⟨r, rfl, hr⟩ := Option.map_eq_some_iff.mp heq
          exact hend (congrArg some (Nat.add_left_cancel hr))
        rw [if_neg hend, if_neg hother, hgo]

/-- **The sweep of a backlog does not overflow**, and drops what its purge drops. -/
theorem Backlog.sweep?_eq_some (b : Backlog) (hsize : b.size ≤ 65535) (now : UInt32) :
    b.sweep? now = some (b.purgeable now) := by
  have hfresh := staleCount_le b.window now b.pending
  have hlen : 0 + b.pending.length ≤ 65535 := by
    rw [Nat.zero_add]
    exact hsize
  exact Peripheral.sweep?_eq_some (Nat.zero_le _) hfresh hlen

end Peripheral
