import Peripheral.Proofs.HostView
import Peripheral.Proofs.Pairing

/-!
# `Peripheral.Proofs.ArrivalOrder` — every update is applied, dropped or waiting

An update can be applied at once, wait for its turn, or be dropped for its age, and which of these
happens depends on the state of the link. Seen from the log of all updates it comes to something simple:
what waits is the end of the log, and what lies before it was either dropped, and counted as dropped, or
applied to the tables in order of arrival.

## Contents
- `Interleaves`: a list taken apart into two others.
- `applyAll`: updates applied one after the other.
- `Turn.drops`, `droppedUpdates`, `purgedMark`: what was dropped, and the count it is added to.
- `Accounts`, `accounts_extend`: the log accounted for, turn by turn.
- `History.applied_in_order`: the log accounted for, over a history.
-/

namespace Peripheral

/-! ## Lists taken apart -/

/-- The third list has the members of the first two and no others, and has those of each in their order. -/
inductive Interleaves {α : Type} : List α → List α → List α → Prop
  | nil : Interleaves [] [] []
  | left {x : α} {xs ys zs : List α} (h : Interleaves xs ys zs) : Interleaves (x :: xs) ys (x :: zs)
  | right {y : α} {xs ys zs : List α} (h : Interleaves xs ys zs) : Interleaves xs (y :: ys) (y :: zs)

namespace Interleaves

variable {α : Type} {xs ys zs : List α}

theorem append_left (h : Interleaves xs ys zs) (l : List α) : Interleaves (xs ++ l) ys (zs ++ l) := by
  induction h with
  | nil =>
    induction l with
    | nil => exact .nil
    | cons x rest ih => exact .left ih
  | left h ih => exact .left ih
  | right h ih => exact .right ih

theorem append_right (h : Interleaves xs ys zs) (l : List α) : Interleaves xs (ys ++ l) (zs ++ l) := by
  induction h with
  | nil =>
    induction l with
    | nil => exact .nil
    | cons y rest ih => exact .right ih
  | left h ih => exact .left ih
  | right h ih => exact .right ih

end Interleaves

/-! ## Updates one after the other -/

/-- The tables after some updates, each of them applied to the table of its target. -/
def applyAll (tables : PerTarget HoldTable) : List Pending → Except Fault (PerTarget HoldTable)
  | [] => .ok tables
  | e :: rest => do
    let (table, _) ← (tables.get e.target).update e.usage e.change
    applyAll (tables.set e.target table) rest

variable {tables tables' : PerTarget HoldTable} {e : Pending}

/-- The first update goes to its table, and the others follow. -/
theorem applyAll_cons {table : HoldTable} {effect : Effect}
    (h : (tables.get e.target).update e.usage e.change = .ok (table, effect)) (rest : List Pending) :
    applyAll tables (e :: rest) = applyAll (tables.set e.target table) rest := by
  rw [applyAll, h]
  rfl

/-- Updates can be applied part by part. -/
theorem applyAll_append {first : List Pending} (h : applyAll tables first = .ok tables')
    (second : List Pending) : applyAll tables (first ++ second) = applyAll tables' second := by
  induction first generalizing tables with
  | nil =>
    cases h
    rfl
  | cons e rest ih =>
    obtain ⟨⟨table, effect⟩, hupd, hrest⟩ := Fault.bind_eq_ok.mp h
    rw [List.cons_append, applyAll_cons hupd]
    exact ih hrest

/-- Updates that the tables ignore can be applied and leave no trace. -/
theorem applyAll_of_ignores {l : List Pending} (h : ∀ e ∈ l, Aggregator.Ignores tables e) :
    applyAll tables l = .ok tables := by
  induction l with
  | nil => rfl
  | cons e rest ih =>
    obtain ⟨⟨effect, -, hupd⟩, hrest⟩ := List.forall_mem_cons.mp h
    rw [applyAll_cons hupd, PerTarget.set_get]
    exact ih hrest

/-! ## What is dropped -/

/-- Number of updates that a turn dropped for their age. -/
def Turn.dropCount (t : Turn) : Nat :=
  if t.opens then t.before.backlog.purgeable t.now
  else if t.before.phase = .idle then 0
  else (t.update?.map fun e => (t.before.backlog.store e (t.before.phase = .disconnected)).2.purged).getD 0

/-- The updates that a turn dropped for their age, which were the oldest ones that waited. -/
def Turn.drops (t : Turn) : List Pending := t.before.backlog.pending.take t.dropCount

/-- The turn forgot what waited, or gave it up. -/
def Turn.renews (t : Turn) : Bool := t.forgets || t.resets

/-- The updates dropped so far, after a turn: none if it renewed the log, and its own behind the others if
    not. -/
def Turn.dropFrom (dropped : List Pending) (t : Turn) : List Pending :=
  if t.renews then [] else dropped ++ t.drops

/-- The updates that were dropped for their age since what waited was last forgotten or given up. -/
def droppedUpdates (turns : List Turn) : List Pending := turns.foldl Turn.dropFrom []

/-- What the count of dropped updates was when what waited was last forgotten or given up. -/
def purgedMark (turns : List Turn) : UInt32 :=
  turns.foldl (fun mark t => if t.renews then t.after.losses.purged else mark) 0

@[simp] theorem droppedUpdates_append_singleton (turns : List Turn) (t : Turn) :
    droppedUpdates (turns ++ [t]) = t.dropFrom (droppedUpdates turns) := by
  rw [droppedUpdates, List.foldl_append]
  rfl

@[simp] theorem purgedMark_append_singleton (turns : List Turn) (t : Turn) :
    purgedMark (turns ++ [t]) = if t.renews then t.after.losses.purged else purgedMark turns := by
  rw [purgedMark, List.foldl_append]
  rfl

/-! ## The log accounted for -/

/-- **The log is accounted for.** What waits is the end of the log; what lies before it was dropped or
    applied, and to apply the latter to empty tables gives the tables as they are. -/
def Accounts (log dropped waiting : List Pending) (tables : PerTarget HoldTable) : Prop :=
  ∃ past applied, log = past ++ waiting ∧ Interleaves dropped applied past
    ∧ applyAll Aggregator.vacantTables applied = .ok tables

namespace Accounts

variable {log dropped waiting : List Pending}

/-- An empty log is accounted for by empty tables. -/
theorem new : Accounts [] [] [] Aggregator.vacantTables := ⟨[], [], rfl, .nil, rfl⟩

/-- One more update waits behind the others. -/
theorem push (h : Accounts log dropped waiting tables) (e : Pending) :
    Accounts (log ++ [e]) dropped (waiting ++ [e]) tables := by
  obtain ⟨past, applied, rfl, hinter, hall⟩ := h
  exact ⟨past, applied, List.append_assoc _ _ _, hinter, hall⟩

/-- The oldest updates that wait are dropped. -/
theorem drop (h : Accounts log dropped waiting tables) (n : Nat) :
    Accounts log (dropped ++ waiting.take n) (waiting.drop n) tables := by
  obtain ⟨past, applied, rfl, hinter, hall⟩ := h
  refine ⟨past ++ waiting.take n, applied, ?_, hinter.append_left _, hall⟩
  rw [List.append_assoc, List.take_append_drop]

/-- The oldest updates that wait are applied. -/
theorem apply {l rest : List Pending} (h : Accounts log dropped (l ++ rest) tables)
    (happly : applyAll tables l = .ok tables') : Accounts log dropped rest tables' := by
  obtain ⟨past, applied, rfl, hinter, hall⟩ := h
  refine ⟨past ++ l, applied ++ l, (List.append_assoc _ _ _).symm, hinter.append_right _, ?_⟩
  rw [applyAll_append hall, happly]

/-- An update that finds nothing waiting is applied at once. -/
theorem applyNow (h : Accounts log dropped [] tables) {e : Pending}
    (happly : applyAll tables [e] = .ok tables') : Accounts (log ++ [e]) dropped [] tables' :=
  (h.push e).apply (l := [e]) happly

/-- Going on applies the oldest updates that wait. -/
theorem drain {a b : Aggregator} {out : List Output} {l : List Pending}
    (h : Accounts log dropped l a.tables) (hdrain : a.DrainsTo l b out) :
    Accounts log dropped b.backlog.pending b.tables := by
  cases hdrain with
  | @update skipped rest e table p rs n hl hskip hupd hsub =>
    subst hl
    -- Those that were passed over leave the tables as they are for the one that changes its own.
    exact (h.apply (applyAll_of_ignores hskip)).apply (l := [e]) (applyAll_cons hupd [])
  | motion hskip hsub | idle hskip hrest =>
    rw [← List.append_nil l] at h
    exact h.apply (applyAll_of_ignores hskip)

end Accounts

open Aggregator

variable {layout : Layout} {window : UInt32} {turns : List Turn} {a b : Aggregator}

/-- Putting an update off drops the oldest updates and lets it wait behind the others, or gives
    everything up for it. -/
theorem Aggregator.InShape.defer_cases (h : a.InShape) (e : Pending) :
    (a.resets e = false ∧ (a.defer e).tables = a.tables
        ∧ (a.defer e).backlog.pending
          = a.backlog.pending.drop (a.backlog.store e (a.phase = .disconnected)).2.purged ++ [e])
      ∨ (a.resets e = true ∧ (a.defer e).tables = vacantTables
        ∧ (a.defer e).backlog.pending = [e]) := by
  have hclear := h.map_clear
  have hstores := Backlog.stores_store (h.capacity ▸ by decide) (h.capacity ▸ h.size) e
    (a.phase = .disconnected)
  unfold resets defer
  revert hstores
  generalize a.backlog.store e (a.phase = .disconnected) = stored
  obtain ⟨backlog, receipt⟩ := stored
  intro hstores
  cases hstores with
  | kept hroom hsame hpurge => exact .inl ⟨rfl, rfl, rfl⟩
  | reset hnone => exact .inr ⟨rfl, hclear, rfl⟩

/-- The count of dropped updates after one was put off. -/
theorem Aggregator.purged_defer (a : Aggregator) (e : Pending) :
    (a.defer e).losses.purged
      = Saturating.raise a.losses.purged (a.backlog.store e (a.phase = .disconnected)).2.purged := by
  unfold defer
  dsimp only
  split <;> split <;> rfl

/-! ## Turns -/

/-- A turn without an update drops nothing unless a host begins to listen. -/
theorem Turn.dropCount_of_update?_eq_none {t : Turn} (hopens : t.opens = false)
    (hnone : t.update? = none) : t.dropCount = 0 := by
  simp [Turn.dropCount, hopens, hnone]

/-- Nothing is dropped while the link is idle. -/
theorem Turn.dropCount_of_idle {t : Turn} (hidle : t.before.phase = .idle) : t.dropCount = 0 := by
  simp [Turn.dropCount, Turn.opens, hidle]

/-- An update that is put off drops as many as the backlog drops to store it. -/
theorem Turn.dropCount_of_deferred {t : Turn} {e : Pending} (hopens : t.opens = false)
    (he : t.update? = some e) (hbusy : t.before.phase ≠ .idle) :
    t.dropCount = (t.before.backlog.store e (t.before.phase = .disconnected)).2.purged := by
  simp [Turn.dropCount, hopens, he, hbusy]

/-- A turn that neither forgets nor asks for an update goes on with the log. -/
theorem Turn.renews_of_update?_eq_none {t : Turn} (hforget : t.forgets = false)
    (hnone : t.update? = none) : t.renews = false := by
  simp [Turn.renews, hforget, Turn.resets_of_update?_eq_none hnone]

theorem Turn.dropFrom_of_renews {t : Turn} (h : t.renews = true) (dropped : List Pending) :
    t.dropFrom dropped = [] := by
  simp [Turn.dropFrom, h]

theorem Turn.dropFrom_of_not_renews {t : Turn} (h : t.renews = false) (dropped : List Pending) :
    t.dropFrom dropped = dropped ++ t.before.backlog.pending.take t.dropCount := by
  simp [Turn.dropFrom, Turn.drops, h]

section Steps

variable {log dropped waiting : List Pending} {t : Turn}

/-- A turn that neither forgets nor asks for an update leaves the account as it is, unless a host begins
    to listen. -/
theorem Accounts.quiet (h : Accounts log dropped waiting tables) (hforget : t.forgets = false)
    (hnone : t.update? = none) (hopens : t.opens = false) :
    Accounts (t.extend log) (t.dropFrom dropped) waiting tables := by
  rw [Turn.extend_eq_self hforget hnone,
    Turn.dropFrom_of_not_renews (Turn.renews_of_update?_eq_none hforget hnone),
    Turn.dropCount_of_update?_eq_none hopens hnone, List.take_zero, List.append_nil]
  exact h

/-- A turn that forgets begins a new log. -/
theorem Accounts.renewed (hforget : t.forgets = true) :
    Accounts (t.extend log) (t.dropFrom dropped) [] vacantTables := by
  rw [Turn.extend, if_pos hforget, Turn.dropFrom_of_renews (by simp [Turn.renews, hforget])]
  exact .new

/-- While the link is idle nothing waits, so an update is applied where the log ends. -/
theorem Accounts.idle (h : Accounts log dropped [] tables) {e : Pending} (hforget : t.forgets = false)
    (he : t.update? = some e) (hidle : t.before.phase = .idle)
    (happly : applyAll tables [e] = .ok tables') :
    Accounts (t.extend log) (t.dropFrom dropped) [] tables' := by
  have hresets := Turn.resets_of_idle hidle
  have hextend : t.extend log = log ++ [e] := by
    simp [Turn.extend, hforget, hresets, he]
  have hrenews : t.renews = false := by
    simp [Turn.renews, hforget, hresets]
  rw [hextend, Turn.dropFrom_of_not_renews hrenews, Turn.dropCount_of_idle hidle, List.take_zero,
    List.append_nil]
  exact h.applyNow happly

/-- An update that is put off is logged behind the others that still wait, or begins a new log if they were
    given up for it. -/
theorem Accounts.deferred {e : Pending} (h : Accounts log dropped t.before.backlog.pending t.before.tables)
    (hshape : t.before.InShape) (hforget : t.forgets = false) (hopens : t.opens = false)
    (he : t.update? = some e) (hbusy : t.before.phase ≠ .idle) :
    Accounts (t.extend log) (t.dropFrom dropped) (t.before.defer e).backlog.pending
      (t.before.defer e).tables := by
  have hresets := Turn.resets_of_update?_eq_some he hbusy
  rw [Turn.extend_deferred hforget he hbusy]
  rcases hshape.defer_cases e with ⟨hkept, htables, hpending⟩ | ⟨hreset, htables, hpending⟩
  · rw [Turn.dropFrom_of_not_renews (by simp [Turn.renews, hforget, hresets, hkept]),
      Turn.dropCount_of_deferred hopens he hbusy, htables, hpending, if_neg (by simp [hkept])]
    exact (h.drop _).push e
  · rw [Turn.dropFrom_of_renews (by simp [Turn.renews, hresets, hreset]), htables, hpending,
      if_pos hreset]
    exact Accounts.new.push e

/-- **Every turn keeps the log accounted for.** The device gets ready before anything is held. -/
theorem accounts_extend (hsound : a.Sound) {input : Input} {now : UInt32} {out : List Output}
    (hstep : a.step input now = .ok (b, out)) (hready : input = .ready → a.tables = vacantTables)
    (h : Accounts log dropped a.backlog.pending a.tables) :
    Accounts (Turn.extend log ⟨a, input, now, b, out⟩) (Turn.dropFrom dropped ⟨a, input, now, b, out⟩)
      b.backlog.pending b.tables := by
  cases outcome_of_step hstep with
  | unbound hkey => exact h.quiet rfl (Layout.updateOf?_of_lookup hkey _ now) rfl
  | ignored he hidle hign =>
    rw [(hsound.idle hidle).1] at h ⊢
    exact h.idle rfl he hidle (applyAll_of_ignores (List.forall_mem_singleton.mpr hign))
  | applied he hidle hupd hsub =>
    rw [(hsound.idle hidle).1] at h ⊢
    exact h.idle rfl he hidle (applyAll_cons hupd [])
  | @deferred key pressed _ e he hnotidle => exact h.deferred hsound.toInShape rfl rfl he hnotidle
  | moved hmotion | moving hmotion =>
    have hnone := Layout.updateOf?_of_isMotion a.layout hmotion now
    refine h.quiet ?_ hnone (Turn.opens_of_isMotion hmotion)
    cases input <;> first | rfl | cases hmotion
  | stray | late => exact h.quiet rfl rfl rfl
  | delivered hsome hup hdrain => exact (h.drain hdrain).quiet rfl rfl rfl
  | connected hdown hdrain =>
    have hopens : Turn.opens ⟨a, .link true, now, b, out⟩ = true := by simp [Turn.opens, hdown]
    have hrenews : Turn.renews ⟨a, .link true, now, b, out⟩ = false :=
      Turn.renews_of_update?_eq_none rfl rfl
    have hcount : Turn.dropCount ⟨a, .link true, now, b, out⟩ = a.backlog.purgeable now := by
      simp [Turn.dropCount, hopens]
    rw [Turn.extend_eq_self rfl rfl, Turn.dropFrom_of_not_renews hrenews, hcount]
    exact Accounts.drain (a := a.meeting now) (h.drop _) hdrain
  | @unmoved up _ hsame =>
    cases up with
    | true => exact h.quiet rfl rfl (by simp [Turn.opens, show a.phase ≠ .disconnected by simp [hsame]])
    | false => exact h.quiet (by simp [Turn.forgets, show a.phase = .disconnected by simp [hsame]]) rfl rfl
  | disconnected hup =>
    rw [disconnect, if_neg hup, hsound.map_clear]
    exact .renewed (by simp [Turn.forgets, hup])
  | started hnew =>
    rw [hready rfl]
    exact .renewed rfl

end Steps

/-! ## The count of dropped updates -/

theorem Aggregator.DrainsTo.purged_eq {l : List Pending} {out : List Output} (h : a.DrainsTo l b out) :
    b.losses.purged = a.losses.purged := by
  cases h <;> rfl

/-- **What a turn drops is counted.** -/
theorem purged_of_step {input : Input} {now : UInt32} {out : List Output}
    (hstep : a.step input now = .ok (b, out)) :
    b.losses.purged = Saturating.raise a.losses.purged (Turn.dropCount ⟨a, input, now, b, out⟩) := by
  have hquiet : ∀ {t : Turn}, t.opens = false → t.update? = none →
      a.losses.purged = Saturating.raise a.losses.purged t.dropCount := by
    intro t hopens hnone
    rw [Turn.dropCount_of_update?_eq_none hopens hnone, Saturating.raise_zero]
  cases outcome_of_step hstep with
  | unbound hkey => exact hquiet rfl (Layout.updateOf?_of_lookup hkey _ now)
  | ignored he hidle | applied he hidle =>
    rw [Turn.dropCount_of_idle hidle, Saturating.raise_zero]
  | @deferred key pressed _ e he hnotidle =>
    rw [Turn.dropCount_of_deferred (t := ⟨a, .key key pressed, now, a.defer e, [.activity]⟩) rfl he
      hnotidle]
    exact a.purged_defer e
  | moved hmotion | moving hmotion =>
    exact hquiet (Turn.opens_of_isMotion hmotion) (Layout.updateOf?_of_isMotion a.layout hmotion now)
  | stray | late | started => exact hquiet rfl rfl
  | delivered hsome hup hdrain => exact hdrain.purged_eq.trans (hquiet rfl rfl)
  | connected hdown hdrain =>
    rw [hdrain.purged_eq, Turn.dropCount, if_pos (by simp [Turn.opens, hdown])]
    rfl
  | @unmoved up _ hsame =>
    refine hquiet ?_ rfl
    cases up <;> simp [Turn.opens, hsame]
  | disconnected hup =>
    rw [disconnect, if_neg hup]
    exact hquiet rfl rfl

/-- A turn drops no more than what waits. -/
theorem Turn.dropCount_le (t : Turn) : t.dropCount ≤ t.before.backlog.pending.length := by
  unfold Turn.dropCount
  split
  · exact t.before.backlog.purgeable_le t.now
  · split
    · exact Nat.zero_le _
    · cases t.update? with
      | none => exact Nat.zero_le _
      | some e => exact t.before.backlog.purged_store_le e _

/-- The count of dropped updates has grown by the updates that were dropped. -/
theorem History.purged_eq_raise (h : History layout window turns a) :
    a.losses.purged = Saturating.raise (purgedMark turns) (droppedUpdates turns).length := by
  induction h with
  | new => rfl
  | @turn turns a b input now out h hstep ih =>
    rw [droppedUpdates_append_singleton, purgedMark_append_singleton]
    cases hrenews : Turn.renews ⟨a, input, now, b, out⟩ with
    | true =>
      rw [if_pos rfl, Turn.dropFrom_of_renews hrenews, List.length_nil, Saturating.raise_zero]
    | false =>
      have hle := Turn.dropCount_le ⟨a, input, now, b, out⟩
      rw [if_neg Bool.false_ne_true, Turn.dropFrom_of_not_renews hrenews, List.length_append,
        List.length_take, Nat.min_eq_left hle, ← Saturating.raise_raise, ← ih]
      exact purged_of_step hstep

/-! ## Histories -/

/-- Before its first turn an aggregator is new. -/
theorem History.eq_create (h : History layout window turns a) (hnil : turns = []) :
    a = .create layout window := by
  cases h with
  | new => rfl
  | turn h hstep => simp at hnil

/-- **Updates are applied in order of arrival, none twice, and none is lost without being counted.** Let
    the log be the updates since what waited was last forgotten or given up. Without those that were
    dropped for their age, which are as many as the count of dropped updates has grown by, it begins with
    the updates that were applied, and ends with those that wait; and to apply the former to empty tables
    gives the tables as they are. The device gets ready in the first turn or not at all. -/
theorem History.applied_in_order (h : History layout window turns a)
    (hready : Along (fun pre turn => turn.input = .ready → pre = []) turns) :
    ∃ kept applied, Interleaves (droppedUpdates turns) kept (openUpdates turns)
      ∧ kept = applied ++ a.backlog.pending
      ∧ applyAll vacantTables applied = .ok a.tables
      ∧ a.losses.purged = Saturating.raise (purgedMark turns) (droppedUpdates turns).length := by
  have haccounts : Accounts (openUpdates turns) (droppedUpdates turns) a.backlog.pending a.tables := by
    induction h with
    | new => exact .new
    | @turn turns a b input now out h hstep ih =>
      obtain ⟨hbefore, hfirst⟩ := along_append_singleton.mp hready
      rw [openUpdates_append_singleton, droppedUpdates_append_singleton]
      refine accounts_extend h.sound hstep ?_ (ih hbefore)
      intro hinput
      rw [h.eq_create (hfirst hinput)]
      rfl
  obtain ⟨past, applied, hlog, hinter, hall⟩ := haccounts
  refine ⟨applied ++ a.backlog.pending, applied, ?_, rfl, hall, h.purged_eq_raise⟩
  rw [hlog]
  exact hinter.append_right _

/-- Of four updates the first is applied at once, the next two are dropped for their age, and the last one
    waits. -/
theorem applied_in_order_stale_pair :
    ∃ turns a, History Layout.standard 500 turns a
      ∧ turns.map Turn.stimulus
        = [(.ready, 0), (.link true, 0), (.key 4 true, 10), (.key 5 true, 20), (.key 5 false, 30),
          (.key 6 true, 600)]
      ∧ (openUpdates turns).length = 4 ∧ (droppedUpdates turns).length = 2 ∧ a.backlog.size = 1
      ∧ ∃ kept applied, Interleaves (droppedUpdates turns) kept (openUpdates turns)
        ∧ kept = applied ++ a.backlog.pending ∧ applyAll vacantTables applied = .ok a.tables
        ∧ a.losses.purged = Saturating.raise (purgedMark turns) (droppedUpdates turns).length := by
  obtain ⟨turns, a, h, hinputs, hstate⟩ := exists_history Layout.standard 500
    [(.ready, 0), (.link true, 0), (.key 4 true, 10), (.key 5 true, 20), (.key 5 false, 30),
      (.key 6 true, 600)]
    (fun turns a => (openUpdates turns).length = 4 && (droppedUpdates turns).length = 2
      && a.backlog.size = 1 && decide (Along (fun pre turn => turn.input = .ready → pre = []) turns))
    (by decide +kernel)
  simp only [Bool.and_eq_true, decide_eq_true_eq] at hstate
  obtain ⟨⟨⟨hlog, hdropped⟩, hsize⟩, hready⟩ := hstate
  exact ⟨turns, a, h, hinputs, hlog, hdropped, hsize, h.applied_in_order hready⟩

end Peripheral
