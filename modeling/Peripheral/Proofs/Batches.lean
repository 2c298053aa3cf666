import Mathlib.Order.Bounds.Defs
import Peripheral.Proofs.Replay

/-!
# `Peripheral.Proofs.Batches` — where the batches of a purge end

A purge walks along the stale updates once. On the way it keeps the end of the last batch that it closed and
the farthest pair that the batch under way needs, and it never looks back. That this comes to the longest
prefix that may go at all is a statement about pairs alone: a press has its pair where the changes of its
usage, counted from the press on, first sum to zero.

## Contents
- `IsPair`, `PairedAt`, `pairedAt_iff`: the pair that the walk finds, and the pair that is meant.
- `AllPaired`, `BatchEnd`: where a purge may end.
- `Walk`: what the walk knows; `Walk.press`, `Walk.close`, `Walk.pass` for one update.
- `Walk.batchEnd_succ`, `Walk.not_batchEnd_succ`: whether a batch ends at an update.
- `isGreatest_closedCount`: the walk ends at the last place where a purge may end.
- `closedCount_take_le`, `closedCount_drop_closedCount`: walks along a part of the updates.
-/

namespace Peripheral

variable {l : List Pending} {e : Pending}

/-! ## Running levels -/

theorem length_runningLevels (e : Pending) (level : Int) (rest : List Pending) :
    (runningLevels e level rest).length = rest.length := by
  induction rest generalizing level with
  | nil => rfl
  | cons f rest ih =>
    unfold runningLevels
    split
    · rw [List.length_cons, List.length_cons, ih]
    · rw [List.length_cons, List.length_cons, ih]

/-- The levels on the way to the pair of a press are sums of changes. -/
theorem getElem?_runningLevels {e : Pending} {level x : Int} {rest : List Pending} {d : Nat}
    (h : (runningLevels e level rest)[d]? = some x) :
    x = level + net e.target e.usage (rest.take (d + 1)) := by
  induction rest generalizing level d with
  | nil => simp [runningLevels] at h
  | cons f rest ih =>
    have hsame : e.sameUsage f = true ↔ f.target = e.target ∧ f.usage = e.usage := by
      simp only [Pending.sameUsage, Bool.and_eq_true, decide_eq_true_eq]
      exact ⟨fun h => ⟨h.1.symm, h.2.symm⟩, fun h => ⟨h.1.symm, h.2.symm⟩⟩
    unfold runningLevels at h
    rw [List.take_succ_cons, net_cons]
    split at h
    · rename_i hs
      rw [if_pos (hsame.mp hs)]
      cases d with
      | zero => simpa using h.symm
      | succ d => rw [ih h]; omega
    · rename_i hs
      rw [if_neg fun h => hs (hsame.mpr h)]
      cases d with
      | zero => simpa using h.symm
      | succ d => rw [ih h]; omega

/-- The pair is found where the changes of the usage, that of the press included, first sum to zero. -/
theorem pairDistance?_eq_some_iff {rest : List Pending} {d : Nat} :
    pairDistance? e rest = some d ↔
      d < rest.length ∧ e.change.toInt + net e.target e.usage (rest.take (d + 1)) = 0
        ∧ ∀ k, k < d → e.change.toInt + net e.target e.usage (rest.take (k + 1)) ≠ 0 := by
  have hlevel : ∀ {k : Nat} (hk : k < (runningLevels e e.change.toInt rest).length),
      (runningLevels e e.change.toInt rest)[k]
        = e.change.toInt + net e.target e.usage (rest.take (k + 1)) := by
    intro k hk
    exact getElem?_runningLevels (List.getElem?_eq_getElem hk)
  rw [pairDistance?, List.findIdx?_eq_some_iff_getElem]
  constructor
  · rintro ⟨hd, hzero, hfirst⟩
    refine ⟨length_runningLevels e _ rest ▸ hd, ?_, ?_⟩
    · rw [← hlevel hd]
      simpa using hzero
    · intro k hk
      rw [← hlevel (Nat.lt_trans hk hd)]
      simpa using hfirst k hk
  · rintro ⟨hd, hzero, hfirst⟩
    have hd' := (length_runningLevels e e.change.toInt rest).symm ▸ hd
    refine ⟨hd', by simpa [hlevel hd'] using hzero, ?_⟩
    intro k hk
    simpa [hlevel (Nat.lt_trans hk hd')] using hfirst k hk

/-! ## Pairs -/

/-- The press at position `i` has its pair at position `j`. -/
def IsPair (l : List Pending) (i j : Nat) : Prop :=
  ∃ e d, l[i]? = some e ∧ pairDistance? e (l.drop (i + 1)) = some d ∧ j = i + 1 + d

/-- **Pairs.** At position `i` there is a press, and `j` is the first position behind it such that the changes
    of its usage from `i` to `j` sum to zero. -/
def PairedAt (l : List Pending) (i j : Nat) : Prop :=
  ∃ e, l[i]? = some e ∧ e.isPress = true
    ∧ IsLeast {k | i < k ∧ k < l.length ∧ net e.target e.usage ((l.take (k + 1)).drop i) = 0} j

/-- The changes of a usage from an update on are its own and those behind it. -/
theorem net_drop_take {i d : Nat} (hat : l[i]? = some e) :
    net e.target e.usage ((l.take (i + 1 + d + 1)).drop i)
      = e.change.toInt + net e.target e.usage ((l.drop (i + 1)).take (d + 1)) := by
  obtain ⟨hlt, rfl⟩ := List.getElem?_eq_some_iff.mp hat
  have hlen : i < (l.take (i + 1 + d + 1)).length := by
    rw [List.length_take]
    omega
  rw [List.drop_eq_getElem_cons hlen, List.getElem_take, net_cons, if_pos ⟨rfl, rfl⟩, List.drop_take]
  congr 3
  omega

/-- The walk finds the pairs that are meant. -/
theorem pairedAt_iff {i j : Nat} (hat : l[i]? = some e) (hpress : e.isPress = true) :
    PairedAt l i j ↔ IsPair l i j := by
  constructor
  · rintro ⟨f, hf, -, ⟨hij, hjl, hzero⟩, hleast⟩
    obtain rfl : e = f := Option.some.inj (hat.symm.trans hf)
    obtain ⟨d, rfl⟩ := Nat.exists_eq_add_of_le (Nat.succ_le_of_lt hij)
    refine ⟨e, d, hat, pairDistance?_eq_some_iff.mpr ⟨?_, ?_, ?_⟩, rfl⟩
    · rw [List.length_drop]
      omega
    · rw [← net_drop_take hat]
      exact hzero
    · intro k hk hearlier
      rw [← net_drop_take hat] at hearlier
      have := hleast ⟨by omega, by omega, hearlier⟩
      omega
  · rintro ⟨f, d, hf, hpair, rfl⟩
    obtain rfl : e = f := Option.some.inj (hat.symm.trans hf)
    obtain ⟨hd, hzero, hfirst⟩ := pairDistance?_eq_some_iff.mp hpair
    rw [List.length_drop] at hd
    refine ⟨e, hat, hpress, ⟨by omega, by omega, ?_⟩, ?_⟩
    · rw [net_drop_take hat]
      exact hzero
    · rintro k ⟨hik, hkl, hk⟩
      obtain ⟨d', rfl⟩ := Nat.exists_eq_add_of_le (Nat.succ_le_of_lt hik)
      rw [Nat.succ_eq_add_one, net_drop_take hat] at hk
      apply Nat.le_of_not_lt
      intro hlt
      exact hfirst d' (by omega) hk

namespace PairedAt

variable {i j j' m : Nat}

theorem lt (h : PairedAt l i j) : i < j := by
  obtain ⟨e, -, -, hleast⟩ := h
  exact hleast.1.1

theorem lt_length (h : PairedAt l i j) : j < l.length := by
  obtain ⟨e, -, -, hleast⟩ := h
  exact hleast.1.2.1

/-- A press has one pair. -/
theorem unique (h : PairedAt l i j) (h' : PairedAt l i j') : j = j' := by
  obtain ⟨e, hat, -, hleast⟩ := h
  obtain ⟨e', hat', -, hleast'⟩ := h'
  obtain rfl : e = e' := Option.some.inj (hat.symm.trans hat')
  exact Nat.le_antisymm (hleast.2 hleast'.1) (hleast'.2 hleast.1)

/-- The pairs in the first updates are the pairs that lie there. -/
theorem take_iff : PairedAt (l.take m) i j ↔ PairedAt l i j ∧ j < m := by
  have hsum : ∀ {k : Nat}, k < m → (l.take m).take (k + 1) = l.take (k + 1) := by
    intro k hk
    rw [List.take_take, Nat.min_eq_left hk]
  constructor
  · rintro ⟨e, hat, hpress, ⟨hij, hjl, hzero⟩, hleast⟩
    rw [List.length_take] at hjl
    have hjm : j < m := by omega
    rw [List.getElem?_take_of_lt (by omega)] at hat
    rw [hsum hjm] at hzero
    refine ⟨⟨e, hat, hpress, ⟨hij, by omega, hzero⟩, ?_⟩, hjm⟩
    rintro k ⟨hik, hkl, hk⟩
    apply Nat.le_of_not_lt
    intro hlt
    have hkm : k < m := by omega
    have := hleast ⟨hik, by rw [List.length_take]; omega, by rwa [hsum hkm]⟩
    omega
  · rintro ⟨⟨e, hat, hpress, ⟨hij, hjl, hzero⟩, hleast⟩, hjm⟩
    refine ⟨e, ?_, hpress, ⟨hij, ?_, ?_⟩, ?_⟩
    · rwa [List.getElem?_take_of_lt (by omega)]
    · rw [List.length_take]
      omega
    · rwa [hsum hjm]
    · rintro k ⟨hik, hkl, hk⟩
      rw [List.length_take] at hkl
      rw [hsum (by omega)] at hk
      exact hleast ⟨hik, by omega, hk⟩

/-- The pairs behind the first updates keep their distance. -/
theorem drop_iff : PairedAt (l.drop m) i j ↔ PairedAt l (m + i) (m + j) := by
  have hsum : ∀ k, ((l.drop m).take (k + 1)).drop i = (l.take (m + k + 1)).drop (m + i) := by
    intro k
    rw [List.take_drop, List.drop_drop, Nat.add_assoc]
  constructor
  · rintro ⟨e, hat, hpress, ⟨hij, hjl, hzero⟩, hleast⟩
    rw [List.length_drop] at hjl
    refine ⟨e, by rwa [List.getElem?_drop] at hat, hpress, ⟨by omega, by omega, hsum j ▸ hzero⟩, ?_⟩
    rintro k ⟨hik, hkl, hk⟩
    obtain ⟨d, rfl⟩ := Nat.exists_eq_add_of_le (show m ≤ k by omega)
    have := hleast ⟨by omega, by rw [List.length_drop]; omega, (hsum d).symm ▸ hk⟩
    omega
  · rintro ⟨e, hat, hpress, ⟨hij, hjl, hzero⟩, hleast⟩
    refine ⟨e, by rwa [List.getElem?_drop], hpress, ⟨by omega, ?_, (hsum j).symm ▸ hzero⟩, ?_⟩
    · rw [List.length_drop]
      omega
    · rintro k ⟨hik, hkl, hk⟩
      rw [List.length_drop] at hkl
      have := hleast ⟨by omega, by omega, hsum k ▸ hk⟩
      omega

end PairedAt

/-- A press is not where an update is that is none. -/
theorem ne_of_not_isPress {f : Pending} {i pos : Nat} (hat : l[pos]? = some e) (hnot : e.isPress = false)
    (hf : l[i]? = some f) (hpress : f.isPress = true) : i ≠ pos := by
  rintro rfl
  rw [Option.some.inj (hat.symm.trans hf), hpress] at hnot
  cases hnot

/-! ## Where a purge may end -/

/-- Every press among the first `c` updates has its pair among them. -/
def AllPaired (l : List Pending) (c : Nat) : Prop :=
  ∀ i e, i < c → l[i]? = some e → e.isPress = true → ∃ j, PairedAt l i j ∧ j < c

/-- **Where a purge may end.** It drops nothing; or the first update, which is no press; or updates of which
    every press is dropped with its pair, the last of them being such a pair. -/
inductive BatchEnd (l : List Pending) : Nat → Prop
  | nothing : BatchEnd l 0
  | release {e : Pending} (hat : l[0]? = some e) (hnot : e.isPress = false) : BatchEnd l 1
  | pair {i j : Nat} (hpair : PairedAt l i j) (hall : AllPaired l (j + 1)) : BatchEnd l (j + 1)

namespace BatchEnd

variable {c m : Nat}

theorem allPaired (h : BatchEnd l c) : AllPaired l c := by
  intro i e hi hat hpress
  cases h with
  | nothing => omega
  | release hhead hnot =>
    obtain rfl : i = 0 := by omega
    obtain rfl := Option.some.inj (hhead.symm.trans hat)
    rw [hnot] at hpress
    cases hpress
  | pair hpair hall => exact hall i e hi hat hpress

theorem le_length (h : BatchEnd l c) : c ≤ l.length := by
  cases h with
  | nothing => exact Nat.zero_le _
  | release hat hnot => exact (List.getElem?_eq_some_iff.mp hat).1
  | pair hpair hall => exact hpair.lt_length

/-- A press that has no pair is not dropped, and nothing behind it is. -/
theorem le_of_unpaired {pos : Nat} (h : BatchEnd l c) (hat : l[pos]? = some e) (hpress : e.isPress = true)
    (hnone : ∀ j, ¬ PairedAt l pos j) : c ≤ pos := by
  apply Nat.le_of_not_lt
  intro hlt
  obtain ⟨j, hj, -⟩ := h.allPaired pos e (by omega) hat hpress
  exact hnone j hj

/-- A purge does not end right behind a press. -/
theorem not_isPress {pos : Nat} (h : BatchEnd l (pos + 1)) (hat : l[pos]? = some e) :
    e.isPress = false := by
  rw [← Bool.not_eq_true]
  intro hpress
  obtain ⟨j, hj, hlt⟩ := h.allPaired pos e (Nat.lt_succ_self pos) hat hpress
  have := hj.lt
  omega

/-- Where a purge of the first updates may end, a purge of all of them may. -/
theorem of_take (h : BatchEnd (l.take m) c) : BatchEnd l c := by
  have hle := h.le_length
  rw [List.length_take] at hle
  cases h with
  | nothing => exact .nothing
  | release hat hnot =>
    rw [List.getElem?_take_of_lt (by omega)] at hat
    exact .release hat hnot
  | pair hpair hall =>
    refine .pair (PairedAt.take_iff.mp hpair).1 ?_
    intro i e hi hat hpress
    obtain ⟨j, hj, hlt⟩ := hall i e hi (by rwa [List.getElem?_take_of_lt (by omega)]) hpress
    exact ⟨j, (PairedAt.take_iff.mp hj).1, hlt⟩

/-- A purge that goes on behind its end with a batch may end behind that batch. -/
theorem of_drop {i j : Nat} (h : AllPaired l m) (hpair : PairedAt (l.drop m) i j)
    (hall : AllPaired (l.drop m) (j + 1)) : BatchEnd l (m + j + 1) := by
  refine .pair (PairedAt.drop_iff.mp hpair) ?_
  intro k e hk hat hpress
  by_cases hfirst : k < m
  · obtain ⟨j', hj', hlt⟩ := h k e hfirst hat hpress
    exact ⟨j', hj', by omega⟩
  · obtain ⟨d, rfl⟩ := Nat.exists_eq_add_of_le (show m ≤ k by omega)
    obtain ⟨j', hj', hlt⟩ := hall d e (by omega) (by rwa [List.getElem?_drop]) hpress
    exact ⟨m + j', PairedAt.drop_iff.mp hj', by omega⟩

end BatchEnd

/-! ## The walk -/

/-- **What the walk knows** in front of the update at position `pos`: the last place up to `pos` where a purge
    may end, and how far away the pairs of the presses since then are. -/
structure Walk (l : List Pending) (pos : Nat) (reach : Option Nat) (closed : Nat) : Prop where
  start : pos = 0 → reach = some 0
  batchEnd : BatchEnd l closed
  closed_le : closed ≤ pos
  last : ∀ c, BatchEnd l c → c ≤ pos → c ≤ closed
  paired : ∀ i e, i < pos → l[i]? = some e → e.isPress = true → ∃ j, PairedAt l i j
  within : ∀ i j, closed ≤ i → i < pos → PairedAt l i j → ∃ r, reach = some r ∧ j ≤ r
  reached : ∀ r, reach = some r → 0 < pos → ∃ i, closed ≤ i ∧ i < pos ∧ PairedAt l i r

namespace Walk

variable {pos closed p : Nat} {reach : Option Nat}

theorem new (l : List Pending) : Walk l 0 (some 0) 0 where
  start _ := rfl
  batchEnd := .nothing
  closed_le := Nat.le_refl 0
  last _ _ hc := hc
  paired _ _ hi := absurd hi (Nat.not_lt_zero _)
  within _ _ _ hi := absurd hi (Nat.not_lt_zero _)
  reached _ _ hpos := absurd hpos (Nat.lt_irrefl 0)

/-- A press reaches out to its pair. -/
theorem press (h : Walk l pos reach closed) (hat : l[pos]? = some e) (hpress : e.isPress = true)
    (hpair : PairedAt l pos p) : Walk l (pos + 1) (some (max (reach.getD 0) p)) closed where
  start hzero := absurd hzero (Nat.succ_ne_zero pos)
  batchEnd := h.batchEnd
  closed_le := Nat.le_succ_of_le h.closed_le
  last c hc hle := by
    have hne : c ≠ pos + 1 := by
      rintro rfl
      rw [hc.not_isPress hat] at hpress
      cases hpress
    exact h.last c hc (by omega)
  paired i f hi hf hfpress := by
    by_cases hlast : i = pos
    · exact ⟨p, hlast ▸ hpair⟩
    · exact h.paired i f (by omega) hf hfpress
  within i j hfrom hi hj := by
    refine ⟨_, rfl, ?_⟩
    by_cases hlast : i = pos
    · have := hpair.unique (hlast ▸ hj)
      omega
    · obtain ⟨r, rfl, hjr⟩ := h.within i j hfrom (by omega) hj
      simp only [Option.getD_some]
      omega
  reached r hr _ := by
    obtain rfl := Option.some.inj hr
    have hclosed := h.closed_le
    by_cases hfar : reach.getD 0 ≤ p
    · rw [Nat.max_eq_right hfar]
      exact ⟨pos, hclosed, Nat.lt_succ_self pos, hpair⟩
    · rw [Nat.max_eq_left (by omega)]
      -- Only at the start does `reach` name a position that is no pair, and that one is not far.
      cases reach with
      | none => exact absurd (Nat.zero_le p) hfar
      | some r =>
        have hpos : 0 < pos := by
          rw [Nat.pos_iff_ne_zero]
          intro hzero
          have := Option.some.inj (h.start hzero)
          simp only [Option.getD_some] at hfar
          omega
        obtain ⟨i, hfrom, hi, hj⟩ := h.reached r rfl hpos
        exact ⟨i, hfrom, by omega, hj⟩

/-- Where the farthest pair is, a batch ends. -/
theorem batchEnd_succ (h : Walk l pos (some pos) closed) (hat : l[pos]? = some e) (hnot : e.isPress = false) :
    BatchEnd l (pos + 1) := by
  by_cases hpos : pos = 0
  · subst hpos
    exact .release hat hnot
  · obtain ⟨i, -, -, hpair⟩ := h.reached pos rfl (by omega)
    refine .pair hpair ?_
    intro k f hk hf hpress
    by_cases hold : k < closed
    · obtain ⟨j, hj, hlt⟩ := h.batchEnd.allPaired k f hold hf hpress
      have := h.closed_le
      exact ⟨j, hj, by omega⟩
    · have hne := ne_of_not_isPress hat hnot hf hpress
      obtain ⟨j, hj⟩ := h.paired k f (by omega) hf hpress
      obtain ⟨r, hr, hjr⟩ := h.within k j (by omega) (by omega) hj
      have := Option.some.inj hr
      exact ⟨j, hj, by omega⟩

/-- And nowhere else: the pair at an end belongs to the batch under way, and no pair of it is farther away. -/
theorem not_batchEnd_succ (h : Walk l pos reach closed) (hreach : reach ≠ some pos) :
    ¬ BatchEnd l (pos + 1) := by
  intro hc
  have hall := hc.allPaired
  generalize hend : pos + 1 = c at hc
  cases hc with
  | nothing => omega
  | release hhead hhnot =>
    have hzero : pos = 0 := by omega
    exact hreach (hzero ▸ h.start hzero)
  | @pair i j hpair hjall =>
    obtain rfl : pos = j := by omega
    have hlt := hpair.lt
    have hfrom : closed ≤ i := by
      apply Nat.le_of_not_lt
      intro hold
      obtain ⟨f, hf, hfpress, -⟩ := id hpair
      obtain ⟨j', hj', hlt'⟩ := h.batchEnd.allPaired i f (by omega) hf hfpress
      have := hpair.unique hj'
      have := h.closed_le
      omega
    obtain ⟨r, hr, hpr⟩ := h.within i pos hfrom hlt hpair
    obtain ⟨i', -, hi', hpair'⟩ := h.reached r hr (by omega)
    obtain ⟨f, hf, hfpress, -⟩ := id hpair'
    obtain ⟨j', hj', hlt'⟩ := hall i' f (by omega) hf hfpress
    have := hpair'.unique hj'
    exact hreach (hr.trans (congrArg some (by omega)))

/-- The release that is the farthest pair closes its batch. -/
theorem close (h : Walk l pos (some pos) closed) (hat : l[pos]? = some e) (hnot : e.isPress = false) :
    Walk l (pos + 1) none (pos + 1) where
  start hzero := absurd hzero (Nat.succ_ne_zero pos)
  batchEnd := h.batchEnd_succ hat hnot
  closed_le := Nat.le_refl _
  last _ _ hle := hle
  paired i f hi hf hpress := by
    have hne := ne_of_not_isPress hat hnot hf hpress
    exact h.paired i f (by omega) hf hpress
  within i j hfrom hi := absurd hi (by omega)
  reached r hr := absurd hr (by simp)

/-- Any other update lies inside its batch, or behind all of them. -/
theorem pass (h : Walk l pos reach closed) (hat : l[pos]? = some e) (hnot : e.isPress = false)
    (hreach : reach ≠ some pos) : Walk l (pos + 1) reach closed where
  start hzero := absurd hzero (Nat.succ_ne_zero pos)
  batchEnd := h.batchEnd
  closed_le := Nat.le_succ_of_le h.closed_le
  last c hc hle := by
    have hne : c ≠ pos + 1 := by
      rintro rfl
      exact h.not_batchEnd_succ hreach hc
    exact h.last c hc (by omega)
  paired i f hi hf hpress := by
    have hne := ne_of_not_isPress hat hnot hf hpress
    exact h.paired i f (by omega) hf hpress
  within i j hfrom hi hj := by
    obtain ⟨f, hf, hpress, -⟩ := id hj
    have hne := ne_of_not_isPress hat hnot hf hpress
    exact h.within i j hfrom (by omega) hj
  reached r hr _ := by
    by_cases hpos : pos = 0
    · subst hpos
      exact absurd (h.start rfl) hreach
    · obtain ⟨i, hfrom, hi, hj⟩ := h.reached r hr (by omega)
      exact ⟨i, hfrom, by omega, hj⟩

/-- **The walk ends at the last place where a purge may end.** -/
theorem isGreatest_closedFrom {rest : List Pending} (h : Walk l pos reach closed) (hrest : l.drop pos = rest) :
    IsGreatest {c | BatchEnd l c} (closedFrom pos reach closed rest) := by
  induction rest generalizing pos reach closed with
  | nil =>
    refine ⟨h.batchEnd, ?_⟩
    intro c hc
    have hlen := List.drop_eq_nil_iff.mp hrest
    exact h.last c hc (Nat.le_trans (BatchEnd.le_length hc) hlen)
  | cons f rest ih =>
    have hat : l[pos]? = some f := by
      have hfirst : (l.drop pos)[0]? = l[pos + 0]? := List.getElem?_drop
      rw [hrest] at hfirst
      exact hfirst.symm
    have hnext : l.drop (pos + 1) = rest := by
      rw [← List.drop_drop, hrest]
      rfl
    unfold closedFrom
    by_cases hpress : f.isPress = true
    · rw [if_pos hpress]
      cases hpair : pairDistance? f rest with
      | none =>
        -- This press has no pair, so nothing behind it can be an end.
        refine ⟨h.batchEnd, ?_⟩
        intro c hc
        refine h.last c hc (BatchEnd.le_of_unpaired hc hat hpress ?_)
        intro j hj
        obtain ⟨g, d, hg, hd, -⟩ := (pairedAt_iff hat hpress).mp hj
        rw [← Option.some.inj (hat.symm.trans hg), hnext, hpair] at hd
        cases hd
      | some d =>
        have hhere : PairedAt l pos (pos + 1 + d) :=
          (pairedAt_iff hat hpress).mpr ⟨f, d, hat, by rwa [hnext], rfl⟩
        exact ih (h.press hat hpress hhere) hnext
    · rw [if_neg hpress]
      rw [Bool.not_eq_true] at hpress
      by_cases hend : reach = some pos
      · subst hend
        rw [if_pos rfl]
        exact ih (h.close hat hpress) hnext
      · rw [if_neg hend]
        exact ih (h.pass hat hpress hend) hnext

end Walk

/-- **A purge ends at the last place where it may end.** -/
theorem isGreatest_closedCount (l : List Pending) : IsGreatest {c | BatchEnd l c} (closedCount l) :=
  (Walk.new l).isGreatest_closedFrom rfl

/-- Nothing can go exactly if no batch ends anywhere. -/
theorem closedCount_eq_zero_iff (l : List Pending) : closedCount l = 0 ↔ ∀ c, BatchEnd l c → c = 0 := by
  obtain ⟨hend, hlast⟩ := isGreatest_closedCount l
  constructor
  · intro hzero c hc
    exact Nat.eq_zero_of_le_zero (hzero ▸ hlast hc)
  · intro hnone
    exact hnone _ hend

/-! ## Parts of the updates -/

/-- The more updates are stale, the more of them can go. -/
theorem closedCount_take_le (l : List Pending) (m : Nat) : closedCount (l.take m) ≤ closedCount l :=
  (isGreatest_closedCount l).2 (isGreatest_closedCount (l.take m)).1.of_take

/-- **Behind a purge** no batch is left that could go; only a first update that is no press still can. -/
theorem closedCount_drop_closedCount (l : List Pending) :
    closedCount (l.drop (closedCount l))
      = if ∃ e, l[closedCount l]? = some e ∧ e.isPress = false then 1 else 0 := by
  obtain ⟨hend, hlast⟩ := isGreatest_closedCount l
  obtain ⟨hend', hlast'⟩ := isGreatest_closedCount (l.drop (closedCount l))
  have hfirst : (l.drop (closedCount l))[0]? = l[closedCount l]? := by
    rw [List.getElem?_drop, Nat.add_zero]
  generalize closedCount (l.drop (closedCount l)) = c at hend' hlast'
  cases hend' with
  | nothing =>
    rw [if_neg]
    rintro ⟨e, hat, hnot⟩
    exact absurd (hlast' (BatchEnd.release (hfirst.trans hat) hnot)) (by decide)
  | release hat hnot => rw [if_pos ⟨_, hfirst.symm.trans hat, hnot⟩]
  | pair hpair hall =>
    have := hlast (BatchEnd.of_drop (BatchEnd.allPaired hend) hpair hall)
    omega

end Peripheral
