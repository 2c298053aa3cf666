import Peripheral.Proofs.Levels

/-!
# `Peripheral.Proofs.TableUpdates` — a table that keeps its promise goes on keeping it

A table vouches for its places whenever it hands them out, and an update that left them out of order would
end in a fault. It never does. What the promise needs of the places, apart from their order, is that no two
of them hold the same usage, and this survives both a change of level and a new hold; sorting brings the
order back.

## Contents
- `pairwise_sortByUsage`: sorting puts the places in order.
- `Distinct`, `ordered_sortByUsage`: places with distinct usages are ordered once they are sorted.
- `wellFormed_iff`: the promise, read off the places alone.
- `WellFormed.shift`, `WellFormed.occupy`: a change of level and a new hold keep the promise.
- `WellFormed.update_eq`, `WellFormed.exists_update`: what an update does, and that it never faults.
-/

namespace Peripheral.HoldTable

variable {t : HoldTable} {places : List Hold} {usage : UInt16} {change : Int16}

/-! ## Sorting -/

theorem pairwise_insertByUsage {h : Hold} (hsorted : places.Pairwise fun a b => a.usage ≤ b.usage) :
    (insertByUsage h places).Pairwise fun a b => a.usage ≤ b.usage := by
  induction places with
  | nil => exact List.pairwise_singleton _ _
  | cons a rest ih =>
    obtain ⟨habove, hrest⟩ := List.pairwise_cons.mp hsorted
    unfold insertByUsage
    split
    · rename_i hle
      refine List.pairwise_cons.mpr ⟨?_, hsorted⟩
      intro b hb
      rcases List.mem_cons.mp hb with rfl | hb
      · exact hle
      · exact UInt16.le_trans hle (habove b hb)
    · rename_i hgt
      refine List.pairwise_cons.mpr ⟨?_, ih hrest⟩
      intro b hb
      rcases List.mem_cons.mp ((insertByUsage_perm h rest).mem_iff.mp hb) with rfl | hb
      · exact UInt16.le_of_lt (UInt16.not_le.mp hgt)
      · exact habove b hb

/-- Sorting puts the places in order of their usages. -/
theorem pairwise_sortByUsage (places : List Hold) :
    (sortByUsage places).Pairwise fun a b => a.usage ≤ b.usage := by
  induction places with
  | nil => exact .nil
  | cons a rest ih => exact pairwise_insertByUsage ih

/-! ## Distinct usages -/

/-- No two places hold the same usage. Any number of them may be vacant. -/
def Distinct (places : List Hold) : Prop :=
  places.Pairwise fun a b => a.usage = b.usage → a.usage = 0

theorem distinct_of_perm {l l' : List Hold} (hperm : l.Perm l') (h : Distinct l) : Distinct l' := by
  refine (hperm.pairwise_iff ?_).mp h
  intro a b hab hba
  rw [hba]
  exact hab hba.symm

/-- A list whose members rise strictly as soon as one of them is not vacant is in order. -/
theorem ordered_of_pairwise (h : places.Pairwise fun a b => a.usage = 0 ∨ a.usage < b.usage) :
    ordered places = true := by
  induction places with
  | nil => rfl
  | cons a rest ih =>
    obtain ⟨habove, hrest⟩ := List.pairwise_cons.mp h
    cases rest with
    | nil => rfl
    | cons b rest =>
      have hnext := habove b List.mem_cons_self
      simp only [ordered, Hold.isVacant, Bool.and_eq_true, Bool.or_eq_true, decide_eq_true_eq]
      exact ⟨hnext.symm, ih hrest⟩

/-- Places in order hold distinct usages. -/
theorem distinct_of_ordered (h : ordered places = true) : Distinct places := by
  refine (pairwise_of_ordered h).imp ?_
  intro a b hab heq
  rcases hab with hzero | hlt
  · exact hzero
  · exact absurd (heq ▸ hlt) (UInt16.lt_irrefl _)

/-- **Places with distinct usages are in order once they are sorted.** -/
theorem ordered_sortByUsage (h : Distinct places) : ordered (sortByUsage places) = true := by
  apply ordered_of_pairwise
  refine (pairwise_sortByUsage places).imp₂ ?_ (distinct_of_perm (sortByUsage_perm places).symm h)
  intro a b hle hdistinct
  by_cases heq : a.usage = b.usage
  · exact .inl (hdistinct heq)
  · exact .inr (UInt16.lt_of_le_of_ne hle heq)

/-- A place can be replaced by one whose usage no other place holds. -/
theorem Distinct.set (h : Distinct places) (i : Nat) {x : Hold}
    (hx : ∀ b ∈ places, x.usage = b.usage → x.usage = 0) : Distinct (places.set i x) := by
  induction places generalizing i with
  | nil => exact h
  | cons a rest ih =>
    obtain ⟨hfirst, hrest⟩ := List.pairwise_cons.mp h
    obtain ⟨hxa, hxrest⟩ := List.forall_mem_cons.mp hx
    cases i with
    | zero => exact List.pairwise_cons.mpr ⟨hxrest, hrest⟩
    | succ i =>
      refine List.pairwise_cons.mpr ⟨?_, ih hrest i hxrest⟩
      intro b hb hab
      rcases List.mem_or_eq_of_mem_set hb with hb | rfl
      · exact hfirst b hb hab
      · rw [hab]
        exact hxa hab.symm

/-! ## The promise, read off the places -/

/-- **The promise**: the places are in order, as many of them hold something as are counted, and each of
    those does so at a positive level. -/
theorem wellFormed_iff :
    t.WellFormed ↔ ordered t.places = true ∧ t.places.countP (!·.isVacant) = t.count
      ∧ ∀ h ∈ t.places, h.usage ≠ 0 → 0 < h.level := by
  unfold WellFormed
  refine and_congr_right ?_
  intro hordered
  refine and_congr_right ?_
  intro hcount
  have hholds : t.holds = t.places.filter (!·.isVacant) := by
    have h := drop_vacancies_eq_filter (pairwise_of_ordered hordered)
    rwa [hcount] at h
  rw [hholds]
  constructor
  · intro h g hg hne
    exact h g (List.mem_filter.mpr ⟨hg, by simpa [Hold.isVacant] using hne⟩)
  · intro h g hg
    obtain ⟨hmem, hheld⟩ := List.mem_filter.mp hg
    exact h g hmem (by simpa [Hold.isVacant] using hheld)

/-- Below the holds every place is vacant. -/
theorem WellFormed.isVacant_of_lt (hwf : t.WellFormed) {i : Nat} (hi : i < t.vacancies) :
    t.places[i]?.any Hold.isVacant = true := by
  have hlen : i < t.places.length := Nat.lt_of_lt_of_le hi (Nat.sub_le _ _)
  rw [List.getElem?_eq_getElem hlen, Option.any_some]
  have hcount := congrArg (List.countP (!·.isVacant)) (List.take_append_drop t.vacancies t.places)
  rw [List.countP_append, hwf.2.1, show t.places.drop t.vacancies = t.holds from rfl] at hcount
  -- All that is counted stands above, so nothing is left to be counted below.
  have hholds : t.holds.countP (!·.isVacant) = t.count := by
    rw [← hwf.length_holds, List.countP_eq_length]
    intro g hg
    simpa [Hold.isVacant] using (hwf.mem_holds_iff.mp hg).2
  have hnone : (t.places.take t.vacancies).countP (!·.isVacant) = 0 := by omega
  have hmem : t.places[i] ∈ t.places.take t.vacancies :=
    List.mem_take_iff_getElem.mpr ⟨i, by omega, rfl⟩
  simpa using List.countP_eq_zero.mp hnone _ hmem

/-! ## Updates -/

/-- Another level of the same usage leaves the usages where they are. -/
theorem map_usage_set {i : Nat} {g x : Hold} (hi : places[i]? = some g) (hx : x.usage = g.usage) :
    (places.set i x).map Hold.usage = places.map Hold.usage := by
  have hat : (places.map Hold.usage)[i]? = some g.usage := by rw [List.getElem?_map, hi]; rfl
  obtain ⟨hlt, hget⟩ := List.getElem?_eq_some_iff.mp hat
  rw [List.map_set, hx, ← hget, List.set_getElem_self]

/-- Order is a matter of the usages alone. -/
theorem ordered_iff_usages :
    ordered places = true ↔ (places.map Hold.usage).Pairwise fun u v => u = 0 ∨ u < v := by
  rw [List.pairwise_map]
  exact ⟨pairwise_of_ordered, ordered_of_pairwise⟩

/-- So is the number of places that hold something. -/
theorem countP_eq_countP_usages :
    places.countP (!·.isVacant) = (places.map Hold.usage).countP (· ≠ 0) := by
  rw [List.countP_map]
  apply List.countP_congr
  intro h _
  simp [Hold.isVacant]

/-- A change of level keeps the promise. -/
theorem WellFormed.shift (hwf : t.WellFormed) {place : Nat} (hplace : t.placeOf? usage = some place) :
    (t.shift place change).WellFormed := by
  obtain ⟨l, hat, -, hne⟩ := hwf.placeOf?_eq_some hplace
  obtain ⟨hlt, hget⟩ := List.getElem?_eq_some_iff.mp hat
  obtain ⟨hordered, hcount, hlevels⟩ := wellFormed_iff.mp hwf
  unfold HoldTable.shift
  rw [hat]
  dsimp only
  split
  · rename_i hpos
    have husages := map_usage_set hat (x := ⟨usage, Saturating.add16 l change⟩) rfl
    refine wellFormed_iff.mpr ⟨?_, ?_, ?_⟩
    · rwa [ordered_iff_usages, husages, ← ordered_iff_usages]
    · rwa [countP_eq_countP_usages, husages, ← countP_eq_countP_usages]
    · intro g hg hgne
      rcases List.mem_or_eq_of_mem_set hg with hg | rfl
      · exact hlevels g hg hgne
      · exact hpos
  · -- The place of the usage becomes vacant, and sorting moves it down.
    refine wellFormed_iff.mpr ⟨?_, ?_, ?_⟩
    · exact ordered_sortByUsage ((distinct_of_ordered hordered).set place fun _ _ _ => rfl)
    · have hheld : (!t.places[place].isVacant) = true := by simp [hget, Hold.isVacant, hne]
      rw [(sortByUsage_perm _).countP_eq, List.countP_set hlt, hcount, if_pos hheld,
        if_neg (by simp [Hold.isVacant, Hold.vacant])]
      rfl
    · intro g hg hgne
      rcases List.mem_or_eq_of_mem_set ((sortByUsage_perm _).mem_iff.mp hg) with hg | rfl
      · exact hlevels g hg hgne
      · exact absurd rfl hgne

/-- A new hold keeps the promise. -/
theorem WellFormed.occupy (hwf : t.WellFormed) (hnone : t.placeOf? usage = none)
    (hfree : t.places[t.freePlace]?.any Hold.isVacant = true) (hne : usage ≠ 0) (hpos : 0 < change) :
    (t.occupy usage change).WellFormed := by
  obtain ⟨g, hat, hvacant⟩ := (Option.any_eq_true _ _).mp hfree
  obtain ⟨hlt, hget⟩ := List.getElem?_eq_some_iff.mp hat
  obtain ⟨hordered, hcount, hlevels⟩ := wellFormed_iff.mp hwf
  have hnew : ∀ b ∈ t.places, usage = b.usage → usage = 0 := by
    rintro b hb rfl
    have hlevel := (hwf.level?_eq_some_iff hne).mpr hb
    rw [hwf.level?_of_placeOf?_eq_none hnone] at hlevel
    cases hlevel
  refine wellFormed_iff.mpr ⟨?_, ?_, ?_⟩
  · exact ordered_sortByUsage ((distinct_of_ordered hordered).set _ hnew)
  · show (sortByUsage _).countP _ = t.count + 1
    rw [(sortByUsage_perm _).countP_eq, List.countP_set hlt, hcount, hget,
      if_neg (by simp [hvacant]), if_pos (by simp [Hold.isVacant, hne])]
    rfl
  · intro h hh hhne
    rcases List.mem_or_eq_of_mem_set ((sortByUsage_perm _).mem_iff.mp hh) with hh | rfl
    · exact hlevels h hh hhne
    · exact hpos

theorem pos_of_not_neg (hchange : change ≠ 0) (h : ¬ change < 0) : 0 < change := by
  rw [Int16.lt_iff_toInt_lt] at h ⊢
  have hne : change.toInt ≠ 0 := fun hzero => hchange (Int16.toInt_inj.mp hzero)
  simp only [Int16.toInt_zero] at h ⊢
  omega

/-- **What an update does to a table that keeps its promise**, as long as it is of a usage that can be held and
    changes something. The table vouches for every outcome, so there is no fault among them. -/
theorem WellFormed.update_eq (hwf : t.WellFormed) (hne : usage ≠ 0) (hchange : change ≠ 0) :
    t.update usage change = .ok
      (match t.placeOf? usage with
        | some place => (t.shift place change, .changed)
        | none =>
          if change < 0 then (t, .unheld)
          else if t.isFull then (t, .noRoom)
          else (t.occupy usage change, .changed)) := by
  have hvouch : ∀ {t' : HoldTable} {e : Effect}, t'.WellFormed → t'.vouch e = .ok (t', e) := by
    intro t' e hwf'
    rw [vouch, if_pos hwf']
  unfold update
  rw [if_neg hne, if_neg hchange]
  cases hplace : t.placeOf? usage with
  | some place => exact hvouch (hwf.shift hplace)
  | none =>
    dsimp only
    split
    · exact hvouch hwf
    · rename_i hneg
      split
      · exact hvouch hwf
      · rename_i hroom
        -- There is room, so the place below the holds is one of the vacant ones.
        have hvacancies : 0 < t.vacancies := by
          simp only [isFull, decide_eq_true_eq] at hroom
          unfold vacancies
          omega
        have hfree := hwf.isVacant_of_lt (i := t.freePlace) (Nat.sub_lt hvacancies Nat.one_pos)
        rw [if_pos hfree]
        exact hvouch (hwf.occupy hplace hfree hne (pos_of_not_neg hchange hneg))

/-- **No such update faults.** -/
theorem WellFormed.exists_update (hwf : t.WellFormed) (hne : usage ≠ 0) (hchange : change ≠ 0) :
    ∃ t' e, t.update usage change = .ok (t', e) :=
  ⟨_, _, hwf.update_eq hne hchange⟩

end Peripheral.HoldTable
