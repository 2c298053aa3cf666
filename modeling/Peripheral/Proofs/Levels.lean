import Peripheral.HoldTable.Lemmas

/-!
# `Peripheral.Proofs.Levels` — a hold table read as a map from usages to levels

The places of a table that keeps its promise split in two: vacant ones, and above them the holds, by
ascending usage. A usage therefore has at most one place, and `level?` finds its hold wherever that
place is. An update sorts the places anew, but all it does to this view is to change the level of one
usage.

## Contents
- `holds_eq_filter`, `ascending_holds`: the two parts of a table that keeps its promise.
- `level?_eq_some_iff`, `mem_holds_iff_level?`, `mem_map_usage`: the level of a usage, by its place.
- `raised`, `level?_update`: what an update does to the levels.
- `timesHeld`, `timesHeld_update_le`, `timesHeld_update`: the levels as natural numbers.
-/

namespace Peripheral.HoldTable

variable {t t' : HoldTable} {usage : UInt16} {change : Int16} {e : Effect}

/-! ## Vacant places and holds -/

/-- Places in order rise strictly as soon as one of them is not vacant. -/
theorem pairwise_of_ordered {places : List Hold} (h : ordered places = true) :
    places.Pairwise fun a b => a.usage = 0 ∨ a.usage < b.usage := by
  induction places with
  | nil => exact .nil
  | cons a rest ih =>
    cases rest with
    | nil => exact List.pairwise_singleton _ _
    | cons b rest =>
      simp only [ordered, Hold.isVacant, Bool.and_eq_true, Bool.or_eq_true, decide_eq_true_eq] at h
      have htail := ih h.2
      refine List.pairwise_cons.mpr ⟨?_, htail⟩
      intro c hc
      rcases h.1 with hlt | hvac
      · rcases List.mem_cons.mp hc with rfl | hc
        · exact .inr hlt
        · rcases (List.pairwise_cons.mp htail).1 c hc with hb | hbc
          · exact absurd (hb ▸ hlt) (UInt16.not_lt.mpr (by simp))
          · exact .inr (UInt16.lt_trans hlt hbc)
      · exact .inl hvac

/-- The members above the vacant ones, counted from the end, are those that are not vacant. -/
theorem drop_vacancies_eq_filter {places : List Hold}
    (h : places.Pairwise fun a b => a.usage = 0 ∨ a.usage < b.usage) :
    places.drop (places.length - places.countP (!·.isVacant)) = places.filter (!·.isVacant) := by
  induction places with
  | nil => rfl
  | cons a rest ih =>
    obtain ⟨habove, hrest⟩ := List.pairwise_cons.mp h
    have hle : rest.countP (!·.isVacant) ≤ rest.length := List.countP_le_length
    by_cases hvac : a.isVacant = true
    · rw [List.countP_cons_of_neg (by simp [hvac]), List.filter_cons_of_neg (by simp [hvac]),
        List.length_cons, Nat.succ_sub hle, List.drop_succ_cons]
      exact ih hrest
    · -- Nothing above a hold is vacant, so the whole list stays.
      have hall : ∀ b ∈ a :: rest, (!b.isVacant) = true := by
        intro b hb
        rcases List.mem_cons.mp hb with rfl | hb
        · simpa using hvac
        · rcases habove b hb with ha | hlt
          · exact absurd (by simp [Hold.isVacant, ha]) hvac
          · have hne : b.usage ≠ 0 := fun hb0 => UInt16.not_lt.mpr (by simp) (hb0 ▸ hlt)
            simp [Hold.isVacant, hne]
      rw [List.countP_eq_length.mpr hall, Nat.sub_self, List.drop_zero, List.filter_eq_self.mpr hall]

/-- The holds are the places that are not vacant. -/
theorem WellFormed.holds_eq_filter (hwf : t.WellFormed) :
    t.holds = t.places.filter (!·.isVacant) := by
  have h := drop_vacancies_eq_filter (pairwise_of_ordered hwf.1)
  rwa [hwf.2.1] at h

theorem WellFormed.mem_holds_iff (hwf : t.WellFormed) {h : Hold} :
    h ∈ t.holds ↔ h ∈ t.places ∧ h.usage ≠ 0 := by
  rw [hwf.holds_eq_filter, List.mem_filter]
  simp [Hold.isVacant]

/-- The usages of the holds rise strictly. -/
theorem WellFormed.ascending_holds (hwf : t.WellFormed) : Bisection.Ascending Hold.usage t.holds := by
  have hpair : t.holds.Pairwise fun a b => a.usage = 0 ∨ a.usage < b.usage :=
    (pairwise_of_ordered hwf.1).sublist (List.drop_sublist _ _)
  apply hpair.imp_of_mem
  intro a b ha hb hab
  exact hab.resolve_left (hwf.mem_holds_iff.mp ha).2

theorem WellFormed.length_holds (hwf : t.WellFormed) : t.holds.length = t.count := by
  rw [hwf.holds_eq_filter, ← List.countP_eq_length_filter]
  exact hwf.2.1

theorem WellFormed.count_le (hwf : t.WellFormed) : t.count ≤ t.capacity := by
  rw [← hwf.2.1]
  exact List.countP_le_length

/-! ## Levels by their places -/

/-- A usage has one place at most. -/
theorem WellFormed.place_unique (hwf : t.WellFormed) {i j : Nat} {g h : Hold}
    (hi : t.places[i]? = some g) (hj : t.places[j]? = some h) (hu : g.usage = h.usage)
    (hne : g.usage ≠ 0) : i = j := by
  obtain ⟨hil, hgi⟩ := List.getElem?_eq_some_iff.mp hi
  obtain ⟨hjl, hhj⟩ := List.getElem?_eq_some_iff.mp hj
  have hpair := List.pairwise_iff_getElem.mp (pairwise_of_ordered hwf.1)
  rcases Nat.lt_trichotomy i j with hlt | heq | hgt
  · have := (hpair i j hil hjl hlt).resolve_left (by rwa [hgi])
    rw [hgi, hhj, hu] at this
    exact absurd this (UInt16.lt_irrefl _)
  · exact heq
  · have := (hpair j i hjl hil hgt).resolve_left (by rwa [hhj, ← hu])
    rw [hgi, hhj, hu] at this
    exact absurd this (UInt16.lt_irrefl _)

/-- A usage is held at a level if its hold has a place. -/
theorem WellFormed.level?_eq_some_iff (hwf : t.WellFormed) (hu : usage ≠ 0) {l : Int16} :
    t.level? usage = some l ↔ ⟨usage, l⟩ ∈ t.places := by
  have hmem : ∀ {g : Hold}, g ∈ t.holds ↔ g ∈ t.places ∧ g.usage ≠ 0 := hwf.mem_holds_iff
  unfold level?
  rw [Option.map_eq_some_iff]
  constructor
  · rintro ⟨h, hfind, rfl⟩
    have hkey : h.usage = usage := by simpa using List.find?_some hfind
    subst hkey
    exact (hmem.mp (List.mem_of_find?_eq_some hfind)).1
  · intro hin
    have hhold : ⟨usage, l⟩ ∈ t.holds := hmem.mpr ⟨hin, hu⟩
    cases hfind : t.holds.find? fun h => h.usage = usage with
    | none => exact absurd (by simp) (List.find?_eq_none.mp hfind _ hhold)
    | some h =>
      have hkey : h.usage = usage := by simpa using List.find?_some hfind
      obtain ⟨i, hi⟩ := List.getElem?_of_mem (hmem.mp (List.mem_of_find?_eq_some hfind)).1
      obtain ⟨j, hj⟩ := List.getElem?_of_mem hin
      rw [hwf.place_unique hi hj hkey (hkey ▸ hu), hj] at hi
      exact ⟨h, rfl, by rw [← Option.some.inj hi]⟩

@[simp] theorem level?_empty (capacity : Nat) (u : UInt16) : (empty capacity).level? u = none := by
  rw [level?, holds_empty, List.find?_nil, Option.map_none]

/-- Usage 0 is never held. -/
theorem WellFormed.level?_zero (hwf : t.WellFormed) : t.level? 0 = none := by
  rw [level?, Option.map_eq_none_iff, List.find?_eq_none]
  intro h hh
  simpa using (hwf.mem_holds_iff.mp hh).2

/-- The holds are the usages that have a level. -/
theorem WellFormed.mem_holds_iff_level? (hwf : t.WellFormed) {h : Hold} :
    h ∈ t.holds ↔ t.level? h.usage = some h.level := by
  by_cases hu : h.usage = 0
  · rw [hu, hwf.level?_zero, hwf.mem_holds_iff]
    simp [hu]
  · rw [hwf.level?_eq_some_iff hu, hwf.mem_holds_iff]
    exact and_iff_left hu

/-- The usages of the holds are those that have a level. -/
theorem WellFormed.mem_map_usage (hwf : t.WellFormed) :
    usage ∈ t.holds.map Hold.usage ↔ (t.level? usage).isSome = true := by
  rw [Option.isSome_iff_exists, List.mem_map]
  constructor
  · rintro ⟨g, hg, rfl⟩
    exact ⟨g.level, hwf.mem_holds_iff_level?.mp hg⟩
  · rintro ⟨l, hl⟩
    exact ⟨⟨usage, l⟩, hwf.mem_holds_iff_level?.mpr hl, rfl⟩

/-- Tables that have the holds of a usage in common give it the same level. -/
theorem level?_congr (hwf : t.WellFormed) (hwf' : t'.WellFormed)
    (h : usage ≠ 0 → ∀ l, ⟨usage, l⟩ ∈ t'.places ↔ ⟨usage, l⟩ ∈ t.places) :
    t'.level? usage = t.level? usage := by
  by_cases hu : usage = 0
  · rw [hu, hwf.level?_zero, hwf'.level?_zero]
  · apply Option.ext
    intro l
    rw [hwf.level?_eq_some_iff hu, hwf'.level?_eq_some_iff hu]
    exact h hu l

/-- The place that an update finds is the one of its usage. -/
theorem WellFormed.placeOf?_eq_some (hwf : t.WellFormed) {place : Nat}
    (h : t.placeOf? usage = some place) :
    ∃ l, t.places[place]? = some ⟨usage, l⟩ ∧ t.level? usage = some l ∧ usage ≠ 0 := by
  obtain ⟨i, hi, rfl⟩ := Option.map_eq_some_iff.mp h
  obtain ⟨g, hg, rfl⟩ := (Bisection.position?_eq_some hwf.ascending_holds).mp hi
  have hne : g.usage ≠ 0 := (hwf.mem_holds_iff.mp (List.mem_of_getElem? hg)).2
  have hplace : t.places[i + t.vacancies]? = some g := by
    rw [Nat.add_comm, ← List.getElem?_drop]
    exact hg
  exact ⟨g.level, hplace, (hwf.level?_eq_some_iff hne).mpr (List.mem_of_getElem? hplace), hne⟩

theorem WellFormed.level?_of_placeOf?_eq_none (hwf : t.WellFormed) (h : t.placeOf? usage = none) :
    t.level? usage = none := by
  have hnone := (Bisection.position?_eq_none hwf.ascending_holds).mp (Option.map_eq_none_iff.mp h)
  rw [level?, Option.map_eq_none_iff, List.find?_eq_none]
  intro g hg
  simpa using hnone g hg

/-! ## Updates -/

/-- The level that is left of a level, or of none, after a change. -/
def raised (change : Int16) : Option Int16 → Option Int16
  | some l => if 0 < Saturating.add16 l change then some (Saturating.add16 l change) else none
  | none => some change

/-- Replacing a member leaves all members alone that are neither the old one nor the new one. -/
theorem mem_set_of_ne {α : Type} {l : List α} {i : Nat} {x y z : α} (hi : l[i]? = some z) (hy : x ≠ y)
    (hz : x ≠ z) : x ∈ l.set i y ↔ x ∈ l := by
  have hlt : i < l.length := (List.getElem?_eq_some_iff.mp hi).1
  constructor
  · intro h
    exact (List.mem_or_eq_of_mem_set h).resolve_right hy
  · intro h
    obtain ⟨j, hj⟩ := List.getElem?_of_mem h
    have hij : i ≠ j := by
      rintro rfl
      exact hz (Option.some.inj (hj.symm.trans hi))
    exact List.mem_of_getElem? (i := j) (by rw [List.getElem?_set_ne hij]; exact hj)

/-- A change at the place of a usage is a change of its level. -/
theorem level?_shift (hwf : t.WellFormed) {place : Nat} (hplace : t.placeOf? usage = some place)
    (hwf' : (t.shift place change).WellFormed) (u : UInt16) :
    (t.shift place change).level? u
      = if u = usage then raised change (t.level? usage) else t.level? u := by
  obtain ⟨l, hat, hlevel, hne⟩ := hwf.placeOf?_eq_some hplace
  have hlt : place < t.places.length := (List.getElem?_eq_some_iff.mp hat).1
  rw [hlevel, raised]
  unfold shift at hwf' ⊢
  simp only [hat] at hwf' ⊢
  split at hwf' <;> rename_i hpos
  · simp only [if_pos hpos]
    split
    · rename_i hu
      rw [hu, hwf'.level?_eq_some_iff hne]
      exact List.mem_set hlt _
    · rename_i hu
      refine level?_congr hwf hwf' fun _ l' => mem_set_of_ne hat ?_ ?_
      · exact fun h => hu (congrArg Hold.usage h)
      · exact fun h => hu (congrArg Hold.usage h)
  · simp only [if_neg hpos]
    have hmem : ∀ g, g ∈ sortByUsage (t.places.set place Hold.vacant)
        ↔ g ∈ t.places.set place Hold.vacant := fun g => (sortByUsage_perm _).mem_iff
    split
    · rename_i hu
      rw [hu, Option.eq_none_iff_forall_ne_some]
      intro l' hl'
      rw [hwf'.level?_eq_some_iff hne, hmem] at hl'
      -- Another hold of the usage would have been at the place that is vacant now.
      obtain ⟨j, hj⟩ := List.getElem?_of_mem hl'
      by_cases hij : place = j
      · rw [← hij, List.getElem?_set_self hlt] at hj
        exact hne (congrArg Hold.usage (Option.some.inj hj)).symm
      · rw [List.getElem?_set_ne hij] at hj
        exact hij (hwf.place_unique hat hj rfl hne)
    · rename_i hu
      refine level?_congr hwf hwf' fun hu0 l' => (hmem _).trans (mem_set_of_ne hat ?_ ?_)
      · exact fun h => hu0 (congrArg Hold.usage h)
      · exact fun h => hu (congrArg Hold.usage h)

/-- A new hold adds its usage to those that are held. -/
theorem level?_occupy (hwf : t.WellFormed) (hfree : t.places[t.freePlace]?.any Hold.isVacant = true)
    (hnone : t.level? usage = none) (hne : usage ≠ 0) (hwf' : (t.occupy usage change).WellFormed)
    (u : UInt16) :
    (t.occupy usage change).level? u
      = if u = usage then raised change (t.level? usage) else t.level? u := by
  obtain ⟨g, hat, hvac⟩ := (Option.any_eq_true _ _).mp hfree
  have hlt : t.freePlace < t.places.length := (List.getElem?_eq_some_iff.mp hat).1
  have hmem : ∀ h, h ∈ sortByUsage (t.places.set t.freePlace ⟨usage, change⟩)
      ↔ h ∈ t.places.set t.freePlace ⟨usage, change⟩ := fun h => (sortByUsage_perm _).mem_iff
  rw [hnone, raised]
  split
  · rename_i hu
    rw [hu, hwf'.level?_eq_some_iff hne]
    exact (hmem _).mpr (List.mem_set hlt _)
  · rename_i hu
    refine level?_congr hwf hwf' fun hu0 l => (hmem _).trans (mem_set_of_ne hat ?_ ?_)
    · exact fun h => hu (congrArg Hold.usage h)
    · rintro rfl
      exact hu0 (by simpa [Hold.isVacant] using hvac)

/-- **An update, seen through the levels.** It changes the level of its own usage if it makes a report
    due, and no level otherwise. -/
theorem level?_update (hwf : t.WellFormed) (h : t.update usage change = .ok (t', e)) (u : UInt16) :
    t'.level? u = if u = usage ∧ e = .changed then raised change (t.level? usage) else t.level? u := by
  obtain ⟨hwf', hcases⟩ := update_cases h
  rcases hcases with ⟨place, hplace, rfl, rfl⟩ | ⟨-, -, rfl, rfl⟩ | ⟨-, -, -, rfl, rfl⟩ |
    ⟨hnone, hfree, rfl, rfl⟩
  · simpa using level?_shift hwf hplace hwf' u
  · simp
  · simp
  · have hlevel := hwf.level?_of_placeOf?_eq_none hnone
    simpa using level?_occupy hwf hfree hlevel (ne_zero_of_update h).1 hwf' u

/-- An update that makes no report due does so because its usage is not held. -/
theorem level?_eq_none_of_update (hwf : t.WellFormed) (h : t.update usage change = .ok (t', e))
    (hne : e ≠ .changed) : t.level? usage = none := by
  rcases (update_cases h).2 with ⟨_, _, he, _⟩ | ⟨hnone, _⟩ | ⟨hnone, _⟩ | ⟨hnone, _⟩
  · exact absurd he hne
  all_goals exact hwf.level?_of_placeOf?_eq_none hnone

/-! ## Levels as numbers -/

/-- How often a usage is held; not at all if it is not tracked. -/
def timesHeld (t : HoldTable) (usage : UInt16) : Nat := ((t.level? usage).getD 0).toInt.toNat

@[simp] theorem timesHeld_empty (capacity : Nat) : (empty capacity).timesHeld usage = 0 := by
  simp [timesHeld]

/-- Levels are positive. -/
theorem WellFormed.level_pos (hwf : t.WellFormed) {l : Int16} (h : t.level? usage = some l) :
    0 < l.toInt := by
  obtain ⟨g, hfind, rfl⟩ := Option.map_eq_some_iff.mp h
  exact Int16.lt_iff_toInt_lt.mp (hwf.2.2 g (List.mem_of_find?_eq_some hfind))

/-- An update raises its own usage by no more than its change, and leaves the others alone. Less is
    possible where a level stops at the end of its range or a press finds no room. -/
theorem timesHeld_update_le (hwf : t.WellFormed) (h : t.update usage change = .ok (t', e))
    (u : UInt16) :
    t'.timesHeld u
      ≤ if u = usage then (t.timesHeld usage + change.toInt).toNat else t.timesHeld u := by
  have hlevel := level?_update hwf h u
  unfold timesHeld
  by_cases hu : u = usage
  · subst hu
    rw [if_pos rfl]
    by_cases hchanged : e = .changed
    · rw [hlevel, if_pos ⟨rfl, hchanged⟩]
      cases hold : t.level? u with
      | none => simp [raised]
      | some l =>
        have hpos := hwf.level_pos hold
        have hsum := Saturating.toInt_add16 l change
        rw [raised]
        split
        · simp only [Option.getD_some]
          omega
        · simp
    · rw [hlevel, if_neg fun h => hchanged h.2, level?_eq_none_of_update hwf h hchanged]
      simp
  · apply Nat.le_of_eq
    rw [if_neg hu, hlevel, if_neg fun h => hu h.1]

/-- **An update changes the level of its usage by just its change**, if that stays in range. -/
theorem timesHeld_update (hwf : t.WellFormed) (h : t.update usage change = .ok (t', .changed))
    (hlow : 0 ≤ (t.timesHeld usage : Int) + change.toInt)
    (hhigh : (t.timesHeld usage : Int) + change.toInt ≤ 32767) (u : UInt16) :
    (t'.timesHeld u : Int) = t.timesHeld u + if usage = u then change.toInt else 0 := by
  have hlevel := level?_update hwf h u
  have hzero : (0 : Int16).toInt = 0 := rfl
  by_cases hu : usage = u
  · subst hu
    rw [if_pos ⟨rfl, rfl⟩] at hlevel
    rw [if_pos rfl]
    unfold timesHeld at hlow hhigh ⊢
    rw [hlevel]
    cases hold : t.level? usage with
    | none =>
      rw [hold] at hlow
      simp only [raised, Option.getD_none, Option.getD_some] at hlow ⊢
      omega
    | some l =>
      have hpos := hwf.level_pos hold
      have hsum := Saturating.toInt_add16 l change
      rw [hold] at hlow hhigh
      simp only [raised, Option.getD_some] at hlow hhigh ⊢
      split
      · rw [Option.getD_some]
        omega
      · rename_i hgone
        rw [Int16.lt_iff_toInt_lt, Int.not_lt] at hgone
        rw [Option.getD_none]
        omega
  · unfold timesHeld
    rw [if_neg hu, hlevel, if_neg fun h => hu h.1.symm, Int.add_zero]

/-- A usage that is held is tracked at the level that it is held at, and no other usage is tracked. -/
theorem WellFormed.map_toInt_level? (hwf : t.WellFormed) (u : UInt16) :
    (t.level? u).map Int16.toInt = if t.timesHeld u = 0 then none else some (t.timesHeld u : Int) := by
  unfold timesHeld
  cases hlevel : t.level? u with
  | none => simp
  | some l =>
    have hpos := hwf.level_pos hlevel
    rw [Option.map_some, Option.getD_some, if_neg (by omega), Int.toNat_of_nonneg (by omega)]

/-- A usage is tracked exactly if it is held. -/
theorem WellFormed.isSome_level? (hwf : t.WellFormed) {u : UInt16} :
    (t.level? u).isSome = true ↔ t.timesHeld u ≠ 0 := by
  have hlevel := congrArg Option.isSome (hwf.map_toInt_level? u)
  rw [Option.isSome_map] at hlevel
  rw [hlevel]
  by_cases hzero : t.timesHeld u = 0
  · simp [hzero]
  · simp [hzero]

end Peripheral.HoldTable
