import Mathlib.Data.Finmap
import Mathlib.Data.Finset.Sort
import Peripheral.Proofs.TableUpdates

/-!
# `Peripheral.Proofs.LevelMap` — a hold table is a finite map with room for so many usages

What a table is to its users is a map from usages to levels that can hold a limited number of them. The places,
their order and the sorting are there to store it. There is one way to store a map, with its holds by ascending
usage above the places that are left, so a table tells nothing of the order in which it was filled. An update is
a look-up, and then an insertion or an erasure. What it says of itself is that a report is due, and that is true
of every update that changes the map and of one more: a press of a usage whose level is at the end of its range.

## Contents
- `LevelMap`, `LevelMap.update`, `LevelMap.holds`: the map, an update of it, and its holds in order.
- `Operation`, `performAll`: updates and clearings, of a table and of a map.
- `Represents`, `Represents.update`: a table that stores a map, and goes on storing it.
- `Represents.places_eq`: the one way to store it.
- `is_bounded_map`: what comes of any operations on a new table.
- `LevelMap.update_eq_self_iff`, `update_tells_change_iff`: updates that report a change without one.
-/

namespace Peripheral

/-! ## Maps from usages to levels -/

/-- A finite map from usages to levels. -/
abbrev LevelMap := Finmap fun _ : UInt16 => Int16

namespace LevelMap

variable {m : LevelMap} {room : Nat} {usage : UInt16} {change : Int16}

/-- A press or a release, in a map with room for so many usages, and the effect that it has. The level of a usage
    stops at the ends of 16 bits, and a usage without anything left of it is let go. -/
def update (m : LevelMap) (room : Nat) (usage : UInt16) (change : Int16) : LevelMap × Effect :=
  match m.lookup usage with
  | some level =>
    if level.toInt + change.toInt ≤ 0 then (m.erase usage, .changed)
    else (m.insert usage (Int16.ofIntClamp (level.toInt + change.toInt)), .changed)
  | none =>
    if change < 0 then (m, .unheld)
    else if m.keys.card = room then (m, .noRoom)
    else (m.insert usage change, .changed)

/-- The holds of a map, by ascending usage. -/
def holds (m : LevelMap) : List Hold := m.keys.sort.map fun usage => ⟨usage, (m.lookup usage).getD 0⟩

/-- A map has a hold for every usage in it, at the level of the usage. -/
theorem mem_holds {h : Hold} : h ∈ m.holds ↔ m.lookup h.usage = some h.level := by
  unfold holds
  rw [List.mem_map]
  constructor
  · rintro ⟨u, hu, rfl⟩
    rw [Finset.mem_sort, Finmap.mem_keys, Finmap.mem_iff] at hu
    obtain ⟨level, hlevel⟩ := hu
    rw [hlevel, Option.getD_some]
  · intro hlevel
    refine ⟨h.usage, ?_, by rw [hlevel, Option.getD_some]⟩
    rw [Finset.mem_sort, Finmap.mem_keys]
    exact Finmap.mem_of_lookup_eq_some hlevel

@[simp] theorem length_holds (m : LevelMap) : m.holds.length = m.keys.card := by
  rw [holds, List.length_map, Finset.length_sort]

/-- The usages of the holds rise strictly. -/
theorem pairwise_holds (m : LevelMap) : m.holds.Pairwise fun g h => g.usage < h.usage := by
  rw [holds, List.pairwise_map]
  refine ((Finset.pairwise_sort m.keys (· ≤ ·)).and (Finset.sort_nodup m.keys (· ≤ ·))).imp ?_
  rintro u v ⟨hle, hne⟩
  exact UInt16.lt_of_le_of_ne hle hne

/-- What is left of a level is nothing if the sum is not positive, and the sum as far as 16 bits go otherwise. -/
theorem raised_some (level change : Int16) :
    HoldTable.raised change (some level)
      = if level.toInt + change.toInt ≤ 0 then none
        else some (Int16.ofIntClamp (level.toInt + change.toInt)) := by
  have hsum := Saturating.toInt_add16 level change
  have hpos : 0 < Saturating.add16 level change ↔ ¬ level.toInt + change.toInt ≤ 0 := by
    rw [Int16.lt_iff_toInt_lt, hsum, Int16.toInt_zero]
    omega
  rw [HoldTable.raised]
  by_cases hle : level.toInt + change.toInt ≤ 0
  · rw [if_pos hle, if_neg fun h => hpos.mp h hle]
  · rw [if_neg hle, if_pos (hpos.mpr hle)]
    rfl

/-- **An update, seen through look-ups.** It changes the level of its own usage if it makes a report due, and no
    level otherwise. -/
theorem lookup_update (m : LevelMap) (room : Nat) (usage : UInt16) (change : Int16) (u : UInt16) :
    (m.update room usage change).1.lookup u
      = if u = usage ∧ (m.update room usage change).2 = .changed then
          HoldTable.raised change (m.lookup usage)
        else m.lookup u := by
  unfold update
  cases hlevel : m.lookup usage with
  | some level =>
    dsimp only
    rw [raised_some]
    split
    · by_cases hu : u = usage
      · subst hu
        rw [if_pos ⟨rfl, rfl⟩, Finmap.lookup_erase]
      · rw [if_neg fun h => hu h.1, Finmap.lookup_erase_ne hu]
    · by_cases hu : u = usage
      · subst hu
        rw [if_pos ⟨rfl, rfl⟩, Finmap.lookup_insert]
      · rw [if_neg fun h => hu h.1, Finmap.lookup_insert_of_ne m hu]
  | none =>
    dsimp only
    split
    · rw [if_neg (by simp)]
    · split
      · rw [if_neg (by simp)]
      · by_cases hu : u = usage
        · subst hu
          rw [if_pos ⟨rfl, rfl⟩, Finmap.lookup_insert]
          rfl
        · rw [if_neg fun h => hu h.1, Finmap.lookup_insert_of_ne m hu]

end LevelMap

namespace HoldTable

/-! ## Operations -/

/-- What can be done with a table. -/
inductive Operation
  /-- Add to the level of a usage, or take from it. -/
  | update (usage : UInt16) (change : Int16)
  /-- Let every hold go. -/
  | clear
  deriving DecidableEq

/-- An update is of a usage that can be held, and changes something. -/
def Operation.Proper : Operation → Prop
  | .update usage change => usage ≠ 0 ∧ change ≠ 0
  | .clear => True

instance (op : Operation) : Decidable op.Proper := by
  unfold Operation.Proper
  cases op <;> infer_instance

/-- Do one operation. An update tells its effect. -/
def perform (t : HoldTable) : Operation → Except Fault (HoldTable × Option Effect)
  | .update usage change => do
    let (t, effect) ← t.update usage change
    return (t, some effect)
  | .clear => return (t.clear, none)

/-- Do operations one after the other, and keep what each of them tells. -/
def performAll (t : HoldTable) : List Operation → Except Fault (HoldTable × List (Option Effect))
  | [] => return (t, [])
  | op :: rest => do
    let (t, effect) ← t.perform op
    let (t, effects) ← t.performAll rest
    return (t, effect :: effects)

end HoldTable

namespace LevelMap

/-- The same operation on a map. -/
def perform (m : LevelMap) (room : Nat) : HoldTable.Operation → LevelMap × Option Effect
  | .update usage change => ((m.update room usage change).1, some (m.update room usage change).2)
  | .clear => (∅, none)

/-- The same operations on a map. -/
def performAll (m : LevelMap) (room : Nat) : List HoldTable.Operation → LevelMap × List (Option Effect)
  | [] => (m, [])
  | op :: rest =>
    (((m.perform room op).1.performAll room rest).1,
      (m.perform room op).2 :: ((m.perform room op).1.performAll room rest).2)

end LevelMap

namespace HoldTable

variable {t t' : HoldTable} {m : LevelMap} {room : Nat} {usage : UInt16} {change : Int16}

/-- What could be done was proper. -/
theorem proper_of_perform {t : HoldTable} {op : Operation} {r : HoldTable × Option Effect}
    (h : t.perform op = .ok r) : op.Proper := by
  cases op with
  | update usage change =>
    obtain ⟨⟨t', e⟩, hupd, -⟩ := Fault.bind_eq_ok.mp h
    exact ne_zero_of_update hupd
  | clear => trivial

theorem proper_of_performAll {t : HoldTable} {ops : List Operation} {r : HoldTable × List (Option Effect)}
    (h : t.performAll ops = .ok r) : ∀ op ∈ ops, op.Proper := by
  induction ops generalizing t r with
  | nil => exact List.forall_mem_nil _
  | cons op rest ih =>
    obtain ⟨_, hfirst, hrest⟩ := Fault.bind_eq_ok.mp h
    obtain ⟨_, hrest, -⟩ := Fault.bind_eq_ok.mp hrest
    exact List.forall_mem_cons.mpr ⟨proper_of_perform hfirst, ih hrest⟩

/-! ## Tables that store a map -/

/-- **The table stores the map.** It keeps its promise and has all its places, its vacant places are blank, and
    its levels are those of the map. -/
structure Represents (t : HoldTable) (room : Nat) (m : LevelMap) : Prop where
  wellFormed : t.WellFormed
  capacity : t.capacity = room
  blank : ∀ h ∈ t.places, h.usage = 0 → h = Hold.vacant
  level? : ∀ u, t.level? u = m.lookup u

theorem represents_empty (room : Nat) : (empty room).Represents room ∅ where
  wellFormed := wellFormed_empty room
  capacity := capacity_empty room
  blank h hh _ := List.eq_of_mem_replicate hh
  level? u := by rw [level?_empty, Finmap.lookup_empty]

namespace Represents

/-- The holds of the table are those of the map, in the same order. -/
theorem holds_eq (h : t.Represents room m) : t.holds = m.holds := by
  have hmem : ∀ g, g ∈ t.holds ↔ g ∈ m.holds := by
    intro g
    rw [h.wellFormed.mem_holds_iff_level?, h.level?, LevelMap.mem_holds]
  have hnodup : ∀ {l : List Hold}, (l.Pairwise fun g h => g.usage < h.usage) → l.Nodup := by
    intro l hl
    refine hl.imp ?_
    rintro g h hlt rfl
    exact UInt16.lt_irrefl _ hlt
  have hascending := h.wellFormed.ascending_holds
  refine List.Perm.eq_of_pairwise ?_ hascending m.pairwise_holds
    ((List.perm_ext_iff_of_nodup (hnodup hascending) (hnodup m.pairwise_holds)).mpr hmem)
  intro g g' _ _ hlt hgt
  exact absurd (UInt16.lt_trans hlt hgt) (UInt16.lt_irrefl _)

theorem count_eq (h : t.Represents room m) : t.count = m.keys.card := by
  rw [← h.wellFormed.length_holds, h.holds_eq, LevelMap.length_holds]

theorem isFull_iff (h : t.Represents room m) : t.isFull = true ↔ m.keys.card = room := by
  have hle := h.wellFormed.count_le
  rw [h.count_eq, h.capacity] at hle
  rw [isFull, decide_eq_true_eq, h.capacity, h.count_eq]
  omega

/-- **There is one way to store a map**: its holds by ascending usage, above the places that are left. -/
theorem places_eq (h : t.Represents room m) :
    t.places = List.replicate (room - m.keys.card) Hold.vacant ++ m.holds := by
  have hvacancies : t.vacancies = room - m.keys.card := by rw [vacancies, h.capacity, h.count_eq]
  have hbelow : t.places.take t.vacancies = List.replicate (room - m.keys.card) Hold.vacant := by
    rw [List.eq_replicate_iff]
    refine ⟨?_, ?_⟩
    · rw [List.length_take, show t.places.length = room from h.capacity, hvacancies]
      omega
    · intro g hg
      obtain ⟨i, hi, rfl⟩ := List.mem_take_iff_getElem.mp hg
      have hvacant := h.wellFormed.isVacant_of_lt (Nat.lt_of_lt_of_le hi (Nat.min_le_left _ _))
      rw [List.getElem?_eq_getElem (by omega), Option.any_some] at hvacant
      exact h.blank _ (List.getElem_mem _) (of_decide_eq_true hvacant)
  rw [← hbelow, ← h.holds_eq]
  exact (List.take_append_drop t.vacancies t.places).symm

/-- A table is known by the map that it stores. -/
theorem table_eq (h : t.Represents room m) (h' : t'.Represents room m) : t = t' := by
  obtain ⟨places, count⟩ := t
  obtain ⟨places', count'⟩ := t'
  have hplaces : places = places' := h.places_eq.trans h'.places_eq.symm
  have hcount : count = count' := h.count_eq.trans h'.count_eq.symm
  rw [hplaces, hcount]

/-- And a map by the table that stores it. -/
theorem map_eq {m' : LevelMap} (h : t.Represents room m) (h' : t.Represents room m') : m = m' := by
  apply Finmap.ext_lookup
  intro u
  rw [← h.level?, ← h'.level?]

/-- No usage of the map is 0, and every level is positive. -/
theorem pos_of_lookup (h : t.Represents room m) {level : Int16} (hlevel : m.lookup usage = some level) :
    usage ≠ 0 ∧ 0 < level.toInt := by
  rw [← h.level?] at hlevel
  refine ⟨?_, h.wellFormed.level_pos hlevel⟩
  rintro rfl
  rw [h.wellFormed.level?_zero] at hlevel
  cases hlevel

/-! ## Updates -/

/-- The place of a usage is there to be found exactly if the usage is in the map. -/
theorem placeOf?_eq_none_iff (h : t.Represents room m) : t.placeOf? usage = none ↔ m.lookup usage = none := by
  rw [← h.level?]
  constructor
  · exact h.wellFormed.level?_of_placeOf?_eq_none
  · intro hnone
    cases hplace : t.placeOf? usage with
    | none => rfl
    | some place =>
      obtain ⟨level, -, hlevel, -⟩ := h.wellFormed.placeOf?_eq_some hplace
      rw [hnone] at hlevel
      cases hlevel

/-- Vacant places stay blank when another place is taken or let go. -/
theorem blank_set {places : List Hold} (hblank : ∀ g ∈ places, g.usage = 0 → g = Hold.vacant) (i : Nat) {x : Hold}
    (hx : x.usage = 0 → x = Hold.vacant) : ∀ g ∈ places.set i x, g.usage = 0 → g = Hold.vacant := by
  intro g hg
  rcases List.mem_or_eq_of_mem_set hg with hg | rfl
  · exact hblank g hg
  · exact hx

/-- Updates leave the vacant places blank. -/
theorem blank_update (h : t.Represents room m) {e : Effect} (hupd : t.update usage change = .ok (t', e)) :
    ∀ g ∈ t'.places, g.usage = 0 → g = Hold.vacant := by
  have hne := (ne_zero_of_update hupd).1
  have hsorted : ∀ {places : List Hold}, (∀ g ∈ places, g.usage = 0 → g = Hold.vacant) →
      ∀ g ∈ sortByUsage places, g.usage = 0 → g = Hold.vacant := by
    intro places hblank g hg
    exact hblank g ((sortByUsage_perm places).mem_iff.mp hg)
  rcases (update_cases hupd).2 with ⟨place, hplace, -, rfl⟩ | ⟨-, -, -, rfl⟩ | ⟨-, -, -, -, rfl⟩ | ⟨-, -, -, rfl⟩
  · obtain ⟨level, hat, -, -⟩ := h.wellFormed.placeOf?_eq_some hplace
    unfold shift
    rw [hat]
    dsimp only
    split
    · exact blank_set h.blank place fun hzero => absurd hzero hne
    · exact hsorted (blank_set h.blank place fun _ => rfl)
  · exact h.blank
  · exact h.blank
  · exact hsorted (blank_set h.blank t.freePlace fun hzero => absurd hzero hne)

/-- **The effect of an update is the one that it has on the map.** -/
theorem effect_eq (h : t.Represents room m) {e : Effect} (hupd : t.update usage change = .ok (t', e)) :
    e = (m.update room usage change).2 := by
  obtain ⟨hne, hchange⟩ := ne_zero_of_update hupd
  rw [h.wellFormed.update_eq hne hchange] at hupd
  have heffect : _ = e := congrArg Prod.snd (Except.ok.inj hupd)
  rw [← heffect]
  unfold LevelMap.update
  cases hplace : t.placeOf? usage with
  | some place =>
    cases hlevel : m.lookup usage with
    | some level =>
      dsimp only
      split <;> rfl
    | none =>
      rw [h.placeOf?_eq_none_iff.mpr hlevel] at hplace
      cases hplace
  | none =>
    rw [h.placeOf?_eq_none_iff.mp hplace]
    dsimp only
    split
    · rfl
    · simp only [h.isFull_iff]
      split <;> rfl

/-- **An update of the table is an update of the map that it stores.** -/
theorem update (h : t.Represents room m) (hne : usage ≠ 0) (hchange : change ≠ 0) :
    ∃ t', t.update usage change = .ok (t', (m.update room usage change).2)
      ∧ t'.Represents room (m.update room usage change).1 := by
  obtain ⟨t', e, hupd⟩ := h.wellFormed.exists_update hne hchange
  have heffect := h.effect_eq hupd
  refine ⟨t', heffect ▸ hupd, ?_⟩
  exact
    { wellFormed := wellFormed_of_update hupd
      capacity := (capacity_of_update hupd).trans h.capacity
      blank := h.blank_update hupd
      level? := by
        intro u
        rw [level?_update h.wellFormed hupd u, LevelMap.lookup_update, h.level?, h.level?, heffect] }

/-- One operation of the table is the same operation of the map. -/
theorem perform (h : t.Represents room m) {op : Operation} (hop : op.Proper) :
    ∃ t', t.perform op = .ok (t', (m.perform room op).2) ∧ t'.Represents room (m.perform room op).1 := by
  cases op with
  | update usage change =>
    obtain ⟨t', hupd, hafter⟩ := h.update hop.1 hop.2
    exact ⟨t', Fault.bind_eq_ok.mpr ⟨_, hupd, rfl⟩, hafter⟩
  | clear =>
    have hempty := represents_empty room
    rw [← h.capacity] at hempty
    exact ⟨t.clear, rfl, h.capacity ▸ hempty⟩

/-- **So is any number of them.** -/
theorem performAll (h : t.Represents room m) {ops : List Operation} (hops : ∀ op ∈ ops, op.Proper) :
    ∃ t', t.performAll ops = .ok (t', (m.performAll room ops).2)
      ∧ t'.Represents room (m.performAll room ops).1 := by
  induction ops generalizing t m with
  | nil => exact ⟨t, rfl, h⟩
  | cons op rest ih =>
    obtain ⟨hop, hrest⟩ := List.forall_mem_cons.mp hops
    obtain ⟨t₁, hfirst, h₁⟩ := h.perform hop
    obtain ⟨t₂, hsecond, h₂⟩ := ih h₁ hrest
    refine ⟨t₂, ?_, h₂⟩
    exact Fault.bind_eq_ok.mpr ⟨_, hfirst, Fault.bind_eq_ok.mpr ⟨_, hsecond, rfl⟩⟩

end Represents

/-- **A table is a map with room for so many usages.** Whatever is done with a new table succeeds, with the
    effects that it has on a map. The table then has the usages of the map at their levels, which are positive, and
    no more of them than there is room for. Its places are the vacant ones followed by the holds of the map, by
    ascending usage. -/
theorem is_bounded_map (room : Nat) {ops : List Operation} (hops : ∀ op ∈ ops, op.Proper) :
    ∃ t m effects, LevelMap.performAll ∅ room ops = (m, effects) ∧ (empty room).performAll ops = .ok (t, effects)
      ∧ t.places = List.replicate (room - m.keys.card) Hold.vacant ++ m.holds
      ∧ (m.holds.Pairwise fun g h => g.usage < h.usage)
      ∧ (∀ h, h ∈ m.holds ↔ m.lookup h.usage = some h.level)
      ∧ t.count = m.keys.card ∧ m.keys.card ≤ room
      ∧ (∀ usage, t.level? usage = m.lookup usage)
      ∧ ∀ usage level, m.lookup usage = some level → usage ≠ 0 ∧ 0 < level.toInt := by
  obtain ⟨t, hperform, h⟩ := (represents_empty room).performAll hops
  refine ⟨t, _, _, rfl, hperform, h.places_eq, LevelMap.pairwise_holds _, fun _ => LevelMap.mem_holds, h.count_eq, ?_,
    h.level?, fun _ _ => h.pos_of_lookup⟩
  rw [← h.count_eq, ← h.capacity]
  exact h.wellFormed.count_le

/-- Of two presses that a table of two places takes, one comes to the end of its range, a third press finds no
    room, and a release lets the other usage go. -/
theorem is_bounded_map_two_places :
    let ops : List Operation :=
      [.update 7 2, .update 4 32767, .update 5 1, .update 4 9, .update 6 (-1), .update 7 (-3)]
    (∀ op ∈ ops, op.Proper)
      ∧ ∃ m, LevelMap.performAll ∅ 2 ops
          = (m, [some .changed, some .changed, some .noRoom, some .changed, some .unheld, some .changed])
        ∧ m.keys.card = 1 ∧ m.lookup 4 = some 32767 := by
  intro ops
  have hops : ∀ op ∈ ops, op.Proper := by decide
  have htable : (empty 2).performAll ops = .ok (⟨[Hold.vacant, ⟨4, 32767⟩], 1⟩,
      [some .changed, some .changed, some .noRoom, some .changed, some .unheld, some .changed]) := by
    decide +kernel
  obtain ⟨t, m, effects, hmap, hperform, -, -, -, hcount, -, hlevel, -⟩ := is_bounded_map 2 hops
  rw [htable] at hperform
  obtain ⟨rfl, rfl⟩ := Prod.mk.inj (Except.ok.inj hperform)
  exact ⟨hops, m, hmap, hcount.symm, (hlevel 4).symm⟩

end HoldTable

/-! ## Changes that change nothing -/

namespace LevelMap

variable {m : LevelMap} {room : Nat} {usage : UInt16} {change : Int16}

/-- An update that makes no report due leaves the map as it is. -/
theorem update_eq_self (h : (m.update room usage change).2 ≠ .changed) : (m.update room usage change).1 = m := by
  apply Finmap.ext_lookup
  intro u
  rw [lookup_update, if_neg fun hboth => h hboth.2]

/-- A level stays as it is only at the end of its range. -/
theorem raised_eq_self_iff {level? : Option Int16} (hpos : ∀ level, level? = some level → 0 < level.toInt)
    (hchange : change ≠ 0) : HoldTable.raised change level? = level? ↔ level? = some 32767 ∧ 0 < change := by
  have hmoves : change.toInt ≠ 0 := fun h => hchange (Int16.toInt_inj.mp h)
  cases level? with
  | none => simp [HoldTable.raised]
  | some level =>
    have hlevel := hpos level rfl
    have hclamp := Saturating.toInt_clamp16 (level.toInt + change.toInt)
    rw [raised_some, Option.some_inj, ← Int16.toInt_inj, Int16.lt_iff_toInt_lt]
    have htop : (32767 : Int16).toInt = 32767 := rfl
    have hzero : (0 : Int16).toInt = 0 := rfl
    have hupper := level.toInt_le
    have hlower := level.le_toInt
    rw [htop, hzero]
    split
    · constructor
      · intro h
        cases h
      · omega
    · rw [Option.some_inj, ← Int16.toInt_inj, hclamp]
      omega

/-- **An update makes a report due without a change to the map exactly if it presses a usage whose level is at the
    end of its range.** -/
theorem update_eq_self_iff (hpos : ∀ level, m.lookup usage = some level → 0 < level.toInt) (hchange : change ≠ 0) :
    (m.update room usage change).2 = .changed ∧ (m.update room usage change).1 = m
      ↔ m.lookup usage = some 32767 ∧ 0 < change := by
  rw [← raised_eq_self_iff hpos hchange]
  constructor
  · rintro ⟨hchanged, hself⟩
    have hlookup := lookup_update m room usage change usage
    rw [hself, if_pos ⟨rfl, hchanged⟩] at hlookup
    exact hlookup.symm
  · intro hraised
    have hchanged : (m.update room usage change).2 = .changed := by
      obtain ⟨hlevel, -⟩ := (raised_eq_self_iff hpos hchange).mp hraised
      unfold update
      rw [hlevel]
      dsimp only
      split <;> rfl
    refine ⟨hchanged, Finmap.ext_lookup ?_⟩
    intro u
    rw [lookup_update]
    split
    · next hu => rw [hu.1, hraised]
    · rfl

end LevelMap

namespace HoldTable

variable {t : HoldTable} {room : Nat} {usage : UInt16} {change : Int16}

/-- A table that has come from a new one stores a map. -/
theorem exists_represents {ops : List Operation} {effects : List (Option Effect)}
    (h : (empty room).performAll ops = .ok (t, effects)) : ∃ m, t.Represents room m := by
  obtain ⟨t', hperform, hafter⟩ := (represents_empty room).performAll (proper_of_performAll h)
  rw [h] at hperform
  obtain ⟨rfl, -⟩ := Prod.mk.inj (Except.ok.inj hperform)
  exact ⟨_, hafter⟩

/-- **When a report is due that shows no change.** Whatever has been done with a table, an update changes it
    exactly if it says so, with the one exception of a press of a usage whose level is at the end of its range:
    it says that there is a change, and there is none. -/
theorem update_tells_change_iff {ops : List Operation} {effects : List (Option Effect)}
    (h : (empty room).performAll ops = .ok (t, effects)) (hne : usage ≠ 0) (hchange : change ≠ 0) :
    ∃ t' e, t.update usage change = .ok (t', e)
      ∧ (e ≠ .changed → t' = t)
      ∧ ((e = .changed ↔ t' ≠ t) ↔ ¬ (t.level? usage = some 32767 ∧ 0 < change)) := by
  obtain ⟨m, hrep⟩ := exists_represents h
  obtain ⟨t', hupd, hafter⟩ := hrep.update hne hchange
  have hself : (m.update room usage change).1 = m ↔ t' = t := by
    constructor
    · intro hm
      rw [hm] at hafter
      exact hafter.table_eq hrep
    · rintro rfl
      exact hafter.map_eq hrep
  have hkept : (m.update room usage change).2 ≠ .changed → t' = t := fun hunchanged =>
    hself.mp (LevelMap.update_eq_self hunchanged)
  have hpos : ∀ level, m.lookup usage = some level → 0 < level.toInt := fun _ hlevel =>
    (hrep.pos_of_lookup hlevel).2
  have hidle : (m.update room usage change).2 = .changed ∧ t' = t ↔ t.level? usage = some 32767 ∧ 0 < change := by
    rw [← hself, hrep.level?]
    exact LevelMap.update_eq_self_iff hpos hchange
  refine ⟨t', _, hupd, hkept, ?_⟩
  rw [← hidle]
  tauto

/-- A release from the end of the range is a change, and says so. -/
theorem update_tells_change_iff_release :
    ∃ t effects, (empty 2).performAll [.update 4 32767, .update 9 1] = .ok (t, effects)
      ∧ (4 : UInt16) ≠ 0 ∧ (-1 : Int16) ≠ 0
      ∧ ∃ t' e, t.update 4 (-1) = .ok (t', e) ∧ (e = .changed ↔ t' ≠ t) := by
  have h : (empty 2).performAll [.update 4 32767, .update 9 1]
      = .ok (⟨[⟨4, 32767⟩, ⟨9, 1⟩], 2⟩, [some .changed, some .changed]) := by decide +kernel
  obtain ⟨t', e, hupd, -, hiff⟩ := update_tells_change_iff h (show (4 : UInt16) ≠ 0 by decide)
    (show (-1 : Int16) ≠ 0 by decide)
  exact ⟨_, _, h, by decide, by decide, t', e, hupd, hiff.mpr fun hpress => absurd hpress.2 (by decide)⟩

/-- A press at the end of the range says that there is a change, and leaves the table as it is. -/
theorem update_tells_change_at_limit :
    (empty 1).performAll [.update 4 32767] = .ok (⟨[⟨4, 32767⟩], 1⟩, [some .changed])
      ∧ (⟨[⟨4, 32767⟩], 1⟩ : HoldTable).update 4 1 = .ok (⟨[⟨4, 32767⟩], 1⟩, .changed) := by
  decide +kernel

end HoldTable

end Peripheral
