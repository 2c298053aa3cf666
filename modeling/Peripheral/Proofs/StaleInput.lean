import Mathlib.Data.Nat.Find
import Peripheral.Proofs.FaultFree
import Peripheral.Proofs.PurgeExtent

/-!
# `Peripheral.Proofs.StaleInput` — stale input that was taken back is not replayed

Keys are pressed and let go while no host listens. When one comes, what is stale of that may be dropped, and what
cannot be dropped is replayed. If every press was taken back later on, the batches of the purge reach behind the
last pair, wherever releases without a press lie between them. What the purge leaves is releases alone, and no
release changes tables in which nothing is held.

## Contents
- `Released`: every press is taken back.
- `Released.exists_last_pair`, `Released.not_isPress_of_mem_drop`: what the walk in batches leaves of such updates.
- `DrainsTo.of_vacant`: going on with releases when nothing is held.
- `History.stale_input_dropped`: a host that comes when all that waits is stale and taken back.
-/

namespace Peripheral

/-! ## Presses that are taken back -/

/-- Every press is taken back later on: the changes of its usage, from the press on, come to zero. -/
def Released (l : List Pending) : Prop :=
  ∀ i : Fin l.length, l[i].isPress = true →
    ∃ k : Fin l.length, i < k ∧ net l[i].target l[i].usage ((l.take (k + 1)).drop i) = 0

instance (l : List Pending) : Decidable (Released l) := by
  unfold Released
  infer_instance

namespace Released

variable {l : List Pending} {e : Pending} {i : Nat}

/-- A press that is taken back has a pair, the first update that takes it back. -/
theorem exists_pairedAt (h : Released l) (hat : l[i]? = some e) (hpress : e.isPress = true) :
    ∃ j, PairedAt l i j := by
  obtain ⟨hlt, rfl⟩ := List.getElem?_eq_some_iff.mp hat
  obtain ⟨k, hik, hzero⟩ := h ⟨i, hlt⟩ hpress
  have hback : ∃ k, i < k ∧ k < l.length ∧ net l[i].target l[i].usage ((l.take (k + 1)).drop i) = 0 :=
    ⟨k, hik, k.isLt, hzero⟩
  exact ⟨Nat.find hback, _, hat, hpress, Nat.find_spec hback, fun _ hk => Nat.find_min' hback hk⟩

/-- Of the pairs, if there are any, one is the last. -/
theorem exists_last_pair {j : Nat} (hpair : PairedAt l i j) : ∃ last, IsGreatest {j | ∃ i, PairedAt l i j} last := by
  classical
  have hbound : ∀ k, (∃ i, PairedAt l i k) → k ≤ l.length := fun k ⟨_, hk⟩ => Nat.le_of_lt hk.lt_length
  refine ⟨Nat.findGreatest (fun k => ∃ i, PairedAt l i k) l.length, ?_, ?_⟩
  · exact Nat.findGreatest_spec (hbound j ⟨i, hpair⟩) ⟨i, hpair⟩
  · intro k hk
    exact Nat.le_findGreatest (hbound k hk) hk

/-- **Behind the batches there are no presses.** The walk could end behind the last pair, and every press lies before
    its own. -/
theorem not_isPress_of_mem_drop (h : Released l) (he : e ∈ l.drop (closedCount l)) : e.isPress = false := by
  rw [← Bool.not_eq_true]
  intro hpress
  obtain ⟨d, hat⟩ := List.mem_iff_getElem?.mp he
  rw [List.getElem?_drop] at hat
  obtain ⟨j, hj⟩ := h.exists_pairedAt hat hpress
  obtain ⟨last, ⟨first, hlast⟩, hgreatest⟩ := exists_last_pair hj
  -- No pair lies behind the last one, so no press before it is left without its own.
  have hall : AllPaired l (last + 1) := by
    intro i f _ hf hfpress
    obtain ⟨k, hk⟩ := h.exists_pairedAt hf hfpress
    exact ⟨k, hk, Nat.lt_succ_of_le (hgreatest ⟨i, hk⟩)⟩
  have hend := (isGreatest_closedCount l).2 (BatchEnd.pair hlast hall)
  have hbehind := hgreatest ⟨_, hj⟩
  have hlt := hj.lt
  omega

end Released

/-- A purge of updates that are all stale goes as far as the batches. -/
theorem Backlog.purgeable_of_stale {b : Backlog} {now : UInt32} (hstale : ∀ e ∈ b.pending, b.window ≤ e.age now) :
    b.purgeable now = closedCount b.pending := by
  have hall : b.pending.length ≤ staleCount b.window now b.pending := by
    rw [le_staleCount_iff (Nat.le_refl _), List.take_length]
    exact hstale
  rw [purgeable, List.take_of_length_le hall]

namespace Aggregator

/-! ## Releases without a press -/

/-- An update that changes a table in which nothing is held is a press. -/
theorem isPress_of_update_vacant {e : Pending} {table : HoldTable}
    (hupd : (vacantTables.get e.target).update e.usage e.change = .ok (table, .changed)) : e.isPress = true := by
  have hwf := (fits_vacantTables e.target).wellFormed
  have hlevel := HoldTable.level?_update hwf hupd e.usage
  have hnone : (vacantTables.get e.target).level? e.usage = none := by
    rw [vacantTables, PerTarget.get_same, HoldTable.level?_empty]
  rw [if_pos ⟨rfl, rfl⟩, hnone, HoldTable.raised] at hlevel
  exact decide_eq_true (Int16.lt_iff_toInt_lt.mpr ((HoldTable.wellFormed_of_update hupd).level_pos hlevel))

/-- **Going on with releases alone comes to rest at once**, if nothing is held and no motion waits. -/
theorem DrainsTo.of_vacant {a b : Aggregator} {l : List Pending} {out : List Output} (h : a.DrainsTo l b out)
    (hvacant : a.tables = vacantTables) (hstill : a.pipeline.motion = .zero) (hnot : ∀ e ∈ l, e.isPress = false) :
    out = [] ∧ b.phase = .idle ∧ b.backlog.pending = [] ∧ b.tables = vacantTables := by
  cases h with
  | @update skipped rest e table p rs n hl hskip hupd hsub =>
    have hrelease := hnot e (hl ▸ List.mem_append_right skipped List.mem_cons_self)
    rw [hvacant] at hupd
    rw [isPress_of_update_vacant hupd] at hrelease
    cases hrelease
  | motion hskip hsub hmoved => exact absurd hstill hmoved
  | idle hskip hrest => exact ⟨rfl, rfl, rfl, hvacant⟩

end Aggregator

/-! ## A host that comes -/

/-- **Stale input that was taken back is not replayed.** However an aggregator has come to its state, if a host
    comes when all that waits is stale, and every press that waits was taken back, then nothing is said: the link
    is idle, nothing waits, and nothing is held. Releases without a press may wait among the others, in any place. -/
theorem History.stale_input_dropped {layout : Layout} {window : UInt32} {turns : List Turn} {a : Aggregator}
    (h : History layout window turns a) (hdown : a.phase = .disconnected) {now : UInt32}
    (hstale : ∀ e ∈ a.backlog.pending, window ≤ e.age now) (hreleased : Released a.backlog.pending) :
    ∃ b, a.step (.link true) now = .ok (b, [])
      ∧ b.phase = .idle ∧ b.backlog.pending = [] ∧ b.tables = Aggregator.vacantTables := by
  obtain ⟨b, out, hdrain⟩ := (h.sound.toInShape.meeting now).exists_drain
  have hstep : a.step (.link true) now = .ok (b, out) := by
    show a.connect now = _
    rw [Aggregator.connect, if_pos hdown]
    exact hdrain
  have hpurgeable : a.backlog.purgeable now = closedCount a.backlog.pending := by
    apply Backlog.purgeable_of_stale
    rw [h.window_eq]
    exact hstale
  have hnot : ∀ e ∈ (a.meeting now).backlog.pending, e.isPress = false := by
    intro e he
    have hbehind : e ∈ a.backlog.pending.drop (a.backlog.purgeable now) := he
    rw [hpurgeable] at hbehind
    exact hreleased.not_isPress_of_mem_drop hbehind
  have hvacant : (a.meeting now).tables = Aggregator.vacantTables := (h.sound.disconnected hdown).1
  obtain ⟨rfl, hrest⟩ := (Aggregator.drainsTo_of_drainFrom hdrain).of_vacant hvacant rfl hnot
  exact ⟨b, hstep, hrest⟩

/-- Two releases without a press, one before a pair and one behind it. -/
theorem stale_input_dropped_stray_releases :
    ∃ turns a, History Layout.standard 500 turns a
      ∧ turns.map Turn.stimulus = [(.key 5 false, 0), (.key 4 true, 10), (.key 4 false, 20), (.key 5 false, 25)]
      ∧ a.phase = .disconnected ∧ a.backlog.pending.length = 4
      ∧ (∀ e ∈ a.backlog.pending, 500 ≤ e.age 600) ∧ Released a.backlog.pending
      ∧ ∃ b, a.step (.link true) 600 = .ok (b, [])
        ∧ b.phase = .idle ∧ b.backlog.pending = [] ∧ b.tables = Aggregator.vacantTables := by
  obtain ⟨turns, a, h, hinputs, hstate⟩ := exists_history Layout.standard 500
    [(.key 5 false, 0), (.key 4 true, 10), (.key 4 false, 20), (.key 5 false, 25)]
    (fun _ a => decide (a.phase = .disconnected ∧ a.backlog.pending.length = 4
      ∧ (∀ e ∈ a.backlog.pending, 500 ≤ e.age 600) ∧ Released a.backlog.pending)) (by decide +kernel)
  obtain ⟨hdown, hlength, hstale, hreleased⟩ := of_decide_eq_true hstate
  exact ⟨turns, a, h, hinputs, hdown, hlength, hstale, hreleased, h.stale_input_dropped hdown hstale hreleased⟩

end Peripheral
