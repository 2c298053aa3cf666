import Peripheral.Proofs.Bindings
import Peripheral.Proofs.Levels
import Peripheral.Proofs.Moves
import Peripheral.Proofs.Purge

/-!
# `Peripheral.Proofs.Phases` — what every state of a run keeps

Each phase is a promise: without a host nothing is held and nothing is on the way; an idle link has
nothing left to report; and on a busy link a report is still on the way, whose delivery will wake the
aggregator. An acknowledgement is taken off only after the aggregator has gone on, so going on has to
leave two reports of one kind behind wherever it leaves the link busy.

## Contents
- `Pending.Proper`, `HoldTable.Fits`: updates and tables that their reports can show.
- `Aggregator.Defers`, `defers_defer`: putting an update off.
- `Aggregator.InShape`, `Aggregator.Sound`: what holds in every phase, and what each phase adds.
- `Sound.step`, `sound_of_run`: every step keeps it, so every run does.
- `phases_of_run`: the promises of the phases, in full.
- `Turn.update?`, `Turn.resets`: what a turn of a history did to the updates that wait.
-/

namespace Peripheral

/-! ## Updates and tables that reports can show -/

/-- The update is for a usage that has a place in its report, and it is one press or one release. -/
structure Pending.Proper (e : Pending) : Prop where
  renderable : Renderable e.target e.usage
  change : e.change = 1 ∨ e.change = -1

/-- A key that is bound asks for proper updates. -/
theorem Layout.proper_of_updateOf? {l : Layout} {input : Input} {now : UInt32} {e : Pending}
    (h : l.updateOf? input now = some e) : e.Proper := by
  cases input with
  | key key pressed =>
    obtain ⟨b, hb, rfl⟩ := Option.map_eq_some_iff.mp h
    refine ⟨Layout.renderable_of_mem (Layout.lookup_eq_some_iff.mp hb).1, ?_⟩
    cases pressed
    · exact .inr rfl
    · exact .inl rfl
  | _ => cases h

/-- An update bears the time at which its input came. -/
theorem Layout.time_of_updateOf? {l : Layout} {input : Input} {now : UInt32} {e : Pending}
    (h : l.updateOf? input now = some e) : e.time = now := by
  cases input with
  | key key pressed =>
    obtain ⟨b, -, rfl⟩ := Option.map_eq_some_iff.mp h
    rfl
  | _ => cases h

/-- The table of a report: it keeps its promise, has all its places, and every usage in it has a place
    in the report. -/
structure HoldTable.Fits (table : HoldTable) (t : Target) : Prop where
  wellFormed : table.WellFormed
  capacity : table.capacity = Limits.tablePlaces
  renderable : ∀ h ∈ table.holds, Renderable t h.usage

namespace HoldTable

theorem fits_empty (t : Target) : (empty Limits.tablePlaces).Fits t where
  wellFormed := wellFormed_empty _
  capacity := capacity_empty _
  renderable := by simp

/-- A table that was updated by a usage of its report still fits the report. -/
theorem Fits.update {table table' : HoldTable} {t : Target} {usage : UInt16} {change : Int16}
    {effect : Effect} (h : table.Fits t) (husage : Renderable t usage)
    (hupd : table.update usage change = .ok (table', effect)) : table'.Fits t := by
  have hwf' := wellFormed_of_update hupd
  refine ⟨hwf', (capacity_of_update hupd).trans h.capacity, ?_⟩
  intro g hg
  have hlevel := level?_update h.wellFormed hupd g.usage
  rw [hwf'.mem_holds_iff_level?.mp hg] at hlevel
  by_cases hsame : g.usage = usage
  · rwa [hsame]
  · -- The level of another usage was there before.
    rw [if_neg fun hs => hsame hs.1] at hlevel
    exact h.renderable g (h.wellFormed.mem_holds_iff_level?.mpr hlevel.symm)

/-- There is no media report, so its table stays empty. -/
theorem Fits.holds_media {table : HoldTable} (h : table.Fits .media) : table.holds = [] := by
  rw [List.eq_nil_iff_forall_not_mem]
  intro g hg
  exact h.renderable g hg

theorem Fits.count_le {table : HoldTable} {t : Target} (h : table.Fits t) :
    table.count ≤ Limits.tablePlaces :=
  h.capacity ▸ h.wellFormed.count_le

end HoldTable

/-! ## Reports on the way -/

namespace Pipeline

@[simp] theorem inFlight_feel (p : Pipeline) (input : Input) :
    (p.feel input).inFlight = p.inFlight := by
  cases input <;> rfl

/-- Nothing submits a media report. -/
theorem Submits.inFlight_media {p q : Pipeline} {tables : PerTarget HoldTable} {t : Target}
    {rs : List Report} (h : Submits tables p t q rs) : q.inFlight.media = p.inFlight.media := by
  induction h with
  | mouse | mousePair | keyboard => rfl
  | keyboardFirst hk hnone hmouse ih => exact ih

theorem two_le_raise {n : UInt32} (h : n ≠ 0) : 2 ≤ Saturating.raise n 1 := by
  rw [Ne, ← UInt32.toNat_inj] at h
  rw [UInt32.le_iff_toNat_le, Saturating.toNat_raise]
  change n.toNat ≠ 0 at h
  show 2 ≤ min 4294967295 (n.toNat + 1)
  omega

/-- **After a submission two reports of one kind are on the way.** -/
theorem Submits.exists_two_le {p q : Pipeline} {tables : PerTarget HoldTable} {t : Target}
    {rs : List Report} (h : Submits tables p t q rs) : ∃ s, 2 ≤ q.inFlight.get s := by
  induction h with
  | mouse hr hmore => exact ⟨.mouse, two_le_raise hmore⟩
  | mousePair hr hs hnone => exact ⟨.mouse, UInt32.le_refl 2⟩
  | keyboard hk hmore => exact ⟨.keyboard, two_le_raise hmore⟩
  | keyboardFirst hk hnone hmouse ih => exact ih

theorem ne_zero_of_two_le {n : UInt32} (h : 2 ≤ n) : n ≠ 0 := by
  rintro rfl
  exact absurd h (by decide)

theorem sub_one_ne_zero_of_two_le {n : UInt32} (h : 2 ≤ n) : n - 1 ≠ 0 := by
  rw [UInt32.le_iff_toNat_le] at h
  change 2 ≤ n.toNat at h
  have hone : 1 ≤ n := by
    rw [UInt32.le_iff_toNat_le]
    show 1 ≤ n.toNat
    omega
  rw [Ne, ← UInt32.toNat_inj, UInt32.toNat_sub_of_le _ _ hone]
  show ¬ n.toNat - 1 = 0
  omega

/-- Where two reports of one kind are on the way, one of them is left after an acknowledgement. -/
theorem exists_ne_zero_acknowledge {p : Pipeline} (h : ∃ s, 2 ≤ p.inFlight.get s) (t : Target) :
    ∃ s, ((p.acknowledge? t).getD p).inFlight.get s ≠ 0 := by
  obtain ⟨s, hs⟩ := h
  refine ⟨s, ?_⟩
  unfold acknowledge?
  split
  · exact ne_zero_of_two_le hs
  · rw [Option.getD_some]
    by_cases hst : s = t
    · subst hst
      rw [PerTarget.get_set_self]
      exact sub_one_ne_zero_of_two_le hs
    · rw [PerTarget.get_set_ne _ _ hst]
      exact ne_zero_of_two_le hs

@[simp] theorem motion_acknowledge (p : Pipeline) (t : Target) :
    ((p.acknowledge? t).getD p).motion = p.motion := by
  unfold acknowledge?
  split <;> rfl

/-- Acknowledgements leave the count of media reports alone if it is zero. -/
theorem inFlight_media_acknowledge {p : Pipeline} (h : p.inFlight.media = 0) (t : Target) :
    ((p.acknowledge? t).getD p).inFlight.media = 0 := by
  unfold acknowledge?
  split
  · exact h
  · rename_i hsome
    cases t with
    | media => exact absurd h hsome
    | keyboard | mouse => exact h

end Pipeline

namespace Aggregator

variable {a b : Aggregator}

/-! ## Putting updates off -/

/-- Putting the update off gives up everything that waits, and everything that is held. -/
def resets (a : Aggregator) (e : Pending) : Bool :=
  (a.backlog.store e (a.phase = .disconnected)).2.reset

/-- **Putting an update off.** Either old updates make room for it, or it is the only one that is left
    and the tables are cleared. -/
inductive Defers (a : Aggregator) (e : Pending) : Bool → Aggregator → Prop
  | kept {n : Nat} {losses : Losses} (hroom : a.backlog.size - n < a.backlog.capacity)
      (hsame : ∀ t u, replay t u 0 (a.backlog.pending.drop n) = replay t u 0 a.backlog.pending)
      (hpurge : a.phase ≠ .disconnected → n = a.backlog.purgeable e.time) :
      Defers a e false
        { a with
          backlog := { a.backlog with pending := a.backlog.pending.drop n ++ [e] }
          losses := losses }
  | reset {losses : Losses} (hnone : a.backlog.purgeable e.time = 0) :
      Defers a e true
        { a with
          backlog := { a.backlog with pending := [e] }
          tables := a.tables.map HoldTable.clear
          losses := losses }

theorem defers_defer (hcap : 0 < a.backlog.capacity) (hsize : a.backlog.size ≤ a.backlog.capacity)
    (e : Pending) : a.Defers e (a.resets e) (a.defer e) := by
  have hstores := Backlog.stores_store hcap hsize e (a.phase = .disconnected)
  unfold resets defer
  revert hstores
  generalize a.backlog.store e (a.phase = .disconnected) = stored
  obtain ⟨backlog, receipt⟩ := stored
  intro hstores
  cases hstores with
  | kept hroom hsame hpurge => exact .kept hroom hsame fun hup => hpurge (by simpa using hup)
  | reset hnone => exact .reset hnone

theorem Defers.phase_eq {e : Pending} {reset : Bool} (h : a.Defers e reset b) : b.phase = a.phase := by
  cases h <;> rfl

/-! ## The invariant -/

/-- What holds in every phase: tables fit their reports, the backlog keeps to its room and has only
    proper updates, and no media report is on the way. -/
structure InShape (a : Aggregator) : Prop where
  tables : ∀ t, (a.tables.get t).Fits t
  capacity : a.backlog.capacity = Limits.backlogPlaces
  size : a.backlog.size ≤ Limits.backlogPlaces
  proper : ∀ e ∈ a.backlog.pending, e.Proper
  media : a.pipeline.inFlight.media = 0

/-- **The invariant.** `busy` is the debt that a delivery pays: without a report on the way nothing
    would wake the aggregator again. -/
structure Sound (a : Aggregator) : Prop extends InShape a where
  disconnected : a.phase = .disconnected → a.tables = vacantTables ∧ a.pipeline.inFlight = .same 0
  idle : a.phase = .idle → a.backlog.pending = [] ∧ a.pipeline.motion = .zero
  busy : a.phase = .busy → ∃ t, a.pipeline.inFlight.get t ≠ 0

theorem fits_vacantTables (t : Target) : (vacantTables.get t).Fits t := by
  rw [vacantTables, PerTarget.get_same]
  exact HoldTable.fits_empty t

theorem sound_create (layout : Layout) (window : UInt32) : (create layout window).Sound where
  tables := fits_vacantTables
  capacity := rfl
  size := Nat.zero_le _
  proper := List.forall_mem_nil _
  media := rfl
  disconnected _ := ⟨rfl, rfl⟩
  idle hidle := by cases hidle
  busy hbusy := by cases hbusy

/-- Tables that fit are vacant once they are cleared. -/
theorem InShape.map_clear (h : a.InShape) : a.tables.map HoldTable.clear = vacantTables := by
  have hclear : ∀ t, (a.tables.get t).clear = HoldTable.empty Limits.tablePlaces := by
    intro t
    exact congrArg HoldTable.empty (h.tables t).capacity
  show PerTarget.mk _ _ _ = _
  rw [show a.tables.keyboard.clear = _ from hclear .keyboard,
    show a.tables.mouse.clear = _ from hclear .mouse,
    show a.tables.media.clear = _ from hclear .media]
  rfl

/-- Tables still fit after an update of a usage that its report can show. -/
theorem fits_set {tables : PerTarget HoldTable} (hfits : ∀ t, (tables.get t).Fits t) {e : Pending}
    (he : e.Proper) {table : HoldTable} {effect : Effect}
    (hupd : (tables.get e.target).update e.usage e.change = .ok (table, effect)) (t : Target) :
    ((tables.set e.target table).get t).Fits t := by
  by_cases ht : t = e.target
  · subst ht
    rw [PerTarget.get_set_self]
    exact (hfits _).update he.renderable hupd
  · rw [PerTarget.get_set_ne _ _ ht]
    exact hfits t

/-- Going on keeps the shape. -/
theorem InShape.drain (h : a.InShape) {out : List Output} (hdrain : a.DrainsTo a.backlog.pending b out) :
    b.InShape := by
  cases hdrain with
  | @update skipped rest e table p rs n hl hskip hupd hsub =>
    -- What waits on is a part of what waited before.
    have hmem : ∀ f ∈ e :: rest, f ∈ a.backlog.pending := by
      intro f hf
      rw [hl]
      exact List.mem_append_right skipped hf
    have hsize : rest.length ≤ a.backlog.size := by
      rw [Backlog.size, hl, List.length_append, List.length_cons]
      omega
    exact
      { tables := fits_set h.tables (h.proper e (hmem e List.mem_cons_self)) hupd
        capacity := h.capacity
        size := Nat.le_trans hsize h.size
        proper := fun f hf => h.proper f (hmem f (List.mem_cons_of_mem e hf))
        media := hsub.inFlight_media.trans h.media }
  | motion hskip hsub =>
    exact
      { h with
        size := Nat.zero_le _
        proper := List.forall_mem_nil _
        media := hsub.inFlight_media.trans h.media }
  | idle hskip hrest =>
    exact
      { h with
        size := Nat.zero_le _
        proper := List.forall_mem_nil _ }

/-- Going on leaves the link idle with nothing to report, or busy with two reports on the way. -/
theorem DrainsTo.phase {l : List Pending} {out : List Output} (h : a.DrainsTo l b out) :
    (b.phase = .idle ∧ b.backlog.pending = [] ∧ b.pipeline.motion = .zero) ∨
      (b.phase = .busy ∧ ∃ t, 2 ≤ b.pipeline.inFlight.get t) := by
  cases h with
  | update hl hskip hupd hsub => exact .inr ⟨rfl, hsub.exists_two_le⟩
  | motion hskip hsub => exact .inr ⟨rfl, hsub.exists_two_le⟩
  | idle hskip hrest => exact .inl ⟨rfl, rfl, hrest⟩

/-- A busy state is sound if it is in shape and a report is on the way. -/
theorem InShape.sound_of_busy (h : a.InShape) (hphase : a.phase = .busy)
    (hflight : ∃ t, a.pipeline.inFlight.get t ≠ 0) : a.Sound where
  toInShape := h
  disconnected hdown := absurd (hphase.symm.trans hdown) (by decide)
  idle hidle := absurd (hphase.symm.trans hidle) (by decide)
  busy _ := hflight

/-- An idle state is sound if it is in shape and has nothing to report. -/
theorem InShape.sound_of_idle (h : a.InShape) (hphase : a.phase = .idle)
    (hrest : a.backlog.pending = [] ∧ a.pipeline.motion = .zero) : a.Sound where
  toInShape := h
  disconnected hdown := absurd (hphase.symm.trans hdown) (by decide)
  idle _ := hrest
  busy hbusy := absurd (hphase.symm.trans hbusy) (by decide)

/-- Going on keeps the invariant. -/
theorem InShape.sound_of_drain (h : a.InShape) {out : List Output}
    (hdrain : a.DrainsTo a.backlog.pending b out) : b.Sound := by
  rcases hdrain.phase with ⟨hphase, hrest⟩ | ⟨hphase, htwo⟩
  · exact (h.drain hdrain).sound_of_idle hphase hrest
  · exact (h.drain hdrain).sound_of_busy hphase (htwo.imp fun _ => Pipeline.ne_zero_of_two_le)

/-- Going on keeps the invariant even if one report is taken off afterwards. -/
theorem InShape.sound_of_delivered (h : a.InShape) {out : List Output}
    (hdrain : a.DrainsTo a.backlog.pending b out) (t : Target) :
    Sound { b with pipeline := (b.pipeline.acknowledge? t).getD b.pipeline } := by
  have hshape : InShape { b with pipeline := (b.pipeline.acknowledge? t).getD b.pipeline } :=
    { h.drain hdrain with media := Pipeline.inFlight_media_acknowledge (h.drain hdrain).media t }
  rcases hdrain.phase with ⟨hphase, hrest, hmotion⟩ | ⟨hphase, htwo⟩
  · refine hshape.sound_of_idle hphase ⟨hrest, ?_⟩
    rw [← hmotion]
    exact Pipeline.motion_acknowledge b.pipeline t
  · -- Two reports of one kind were on the way, and only one of them is taken off.
    exact hshape.sound_of_busy hphase (Pipeline.exists_ne_zero_acknowledge htwo t)

/-- Meeting a host keeps the shape. -/
theorem InShape.meeting (h : a.InShape) (now : UInt32) : (a.meeting now).InShape where
  tables := h.tables
  capacity := h.capacity
  size := by
    have hsize := a.backlog.size_purge now
    have := h.size
    show (a.backlog.purge now).size ≤ _
    omega
  proper e he := h.proper e (List.mem_of_mem_drop he)
  media := h.media

/-- Putting a proper update off keeps the shape. -/
theorem InShape.defers (h : a.InShape) {e : Pending} {reset : Bool} (he : e.Proper)
    (hdefer : a.Defers e reset b) : b.InShape := by
  cases hdefer with
  | kept hroom hsame hpurge =>
    refine { h with size := ?_, proper := ?_ }
    · rw [h.capacity, Backlog.size] at hroom
      show (_ ++ [e]).length ≤ _
      rw [List.length_append, List.length_drop, List.length_singleton]
      omega
    · intro f hf
      rcases List.mem_append.mp hf with hf | hf
      · exact h.proper f (List.mem_of_mem_drop hf)
      · rwa [List.mem_singleton.mp hf]
  | reset hnone =>
    refine { h with tables := ?_, size := ?_, proper := ?_ }
    · show ∀ t, ((a.tables.map HoldTable.clear).get t).Fits t
      rw [h.map_clear]
      exact fits_vacantTables
    · show 1 ≤ Limits.backlogPlaces
      decide
    · intro f hf
      rwa [List.mem_singleton.mp hf]

/-- Putting a proper update off while the link is not idle keeps the invariant. -/
theorem Sound.defers (h : a.Sound) {e : Pending} {reset : Bool} (he : e.Proper)
    (hnotidle : a.phase ≠ .idle) (hdefer : a.Defers e reset b) : b.Sound := by
  have hshape := h.toInShape.defers he hdefer
  cases hdefer with
  | kept =>
    exact
      { hshape with
        disconnected := h.disconnected
        idle := fun hidle => absurd hidle hnotidle
        busy := h.busy }
  | reset =>
    exact
      { hshape with
        disconnected := fun hdown => ⟨h.map_clear, (h.disconnected hdown).2⟩
        idle := fun hidle => absurd hidle hnotidle
        busy := h.busy }

theorem InShape.defers_defer (h : a.InShape) (e : Pending) : a.Defers e (a.resets e) (a.defer e) :=
  Aggregator.defers_defer (h.capacity ▸ by decide) (h.capacity ▸ h.size) e

/-- **Every step keeps the invariant.** -/
theorem Sound.step (h : a.Sound) {input : Input} {now : UInt32} {out : List Output}
    (hstep : a.step input now = .ok (b, out)) : b.Sound := by
  cases outcome_of_step hstep with
  | unbound | ignored => exact { h with }
  | applied he hidle hupd hsub =>
    refine InShape.sound_of_busy ?_ rfl (hsub.exists_two_le.imp fun _ => Pipeline.ne_zero_of_two_le)
    exact
      { h with
        tables := fits_set h.tables (Layout.proper_of_updateOf? he) hupd
        media := hsub.inFlight_media.trans h.media }
  | deferred he hnotidle =>
    exact h.defers (Layout.proper_of_updateOf? he) hnotidle (h.defers_defer _)
  | moved hmotion hidle hsub =>
    -- Motion itself launches no report, so the count of media reports is that of the submission.
    have hmedia := hsub.inFlight_media
    rw [Pipeline.inFlight_feel] at hmedia
    refine InShape.sound_of_busy ?_ rfl (hsub.exists_two_le.imp fun _ => Pipeline.ne_zero_of_two_le)
    exact { h with media := hmedia.trans h.media }
  | moving hmotion hbusy =>
    exact
      { h with
        media := by rw [Pipeline.inFlight_feel]; exact h.media
        disconnected := by rw [Pipeline.inFlight_feel]; exact h.disconnected
        idle := fun hidle => absurd hidle hbusy
        busy := by rw [Pipeline.inFlight_feel]; exact h.busy }
  | stray | unmoved => exact h
  | late hsome hdown =>
    -- Without a host nothing is on the way, so there is nothing to deliver late.
    rw [(h.disconnected hdown).2, PerTarget.get_same] at hsome
    exact absurd rfl hsome
  | delivered hsome hup hdrain => exact h.toInShape.sound_of_delivered hdrain _
  | connected hdown hdrain => exact (h.toInShape.meeting now).sound_of_drain hdrain
  | disconnected hup =>
    -- The tables have kept all their places, so without their holds they are as good as new.
    rw [disconnect, if_neg hup, h.map_clear]
    exact
      { tables := fits_vacantTables
        capacity := h.capacity
        size := Nat.zero_le _
        proper := List.forall_mem_nil _
        media := rfl
        disconnected := fun _ => ⟨rfl, rfl⟩
        idle := fun hidle => by cases hidle
        busy := fun hbusy => by cases hbusy }
  | started hnew =>
    exact
      { h with
        size := Nat.zero_le _
        proper := List.forall_mem_nil _
        idle := fun hidle => ⟨rfl, (h.idle hidle).2⟩ }

/-! ## Runs -/

variable {layout : Layout} {window : UInt32}

/-- **Every run keeps the invariant.** -/
theorem sound_of_run {inputs : List (Input × UInt32)} {out : List Output}
    (h : (create layout window).run inputs = .ok (a, out)) : a.Sound :=
  run_invariant (fun _ _ _ _ _ hsound hstep => hsound.step hstep) (sound_create layout window) h

/-- **What each phase promises.** Whatever the inputs of a run were and whenever they came, in the state
    that it ends in:
    - without a host, every table is empty and no report is on the way;
    - if the link is idle, no update waits and no motion waits;
    - if the link is busy, a report is on the way, so that a delivery is owed that wakes the aggregator;
    - nothing is held and nothing is on the way for the media report, and every update that waits is one
      press or one release of a usage that the keyboard report or the mouse report can show;
    - backlog and tables keep to their room. -/
theorem phases_of_run {inputs : List (Input × UInt32)} {out : List Output}
    (h : (create layout window).run inputs = .ok (a, out)) :
    (a.phase = .disconnected →
        ∀ t, (a.tables.get t).isEmpty = true ∧ a.pipeline.inFlight.get t = 0)
      ∧ (a.phase = .idle → a.backlog.isEmpty = true ∧ a.pipeline.motion = .zero)
      ∧ (a.phase = .busy → ∃ t, a.pipeline.inFlight.get t ≠ 0)
      ∧ (a.tables.media.isEmpty = true ∧ a.pipeline.inFlight.media = 0
        ∧ ∀ e ∈ a.backlog.pending, (e.target = .keyboard ∨ e.target = .mouse)
          ∧ Renderable e.target e.usage ∧ (e.change = 1 ∨ e.change = -1))
      ∧ (a.backlog.size ≤ Limits.backlogPlaces
        ∧ ∀ t, (a.tables.get t).count ≤ Limits.tablePlaces) := by
  have hsound := sound_of_run h
  refine ⟨?_, ?_, hsound.busy, ⟨?_, hsound.media, ?_⟩, hsound.size, ?_⟩
  · intro hdown t
    obtain ⟨htables, hflight⟩ := hsound.disconnected hdown
    rw [htables, hflight, vacantTables, PerTarget.get_same, PerTarget.get_same]
    exact ⟨rfl, rfl⟩
  · intro hidle
    obtain ⟨hpending, hmotion⟩ := hsound.idle hidle
    rw [Backlog.isEmpty, hpending]
    exact ⟨rfl, hmotion⟩
  · have hmedia := hsound.tables .media
    have hcount := hmedia.wellFormed.length_holds
    rw [hmedia.holds_media] at hcount
    exact decide_eq_true hcount.symm
  · intro e he
    have hproper := hsound.proper e he
    refine ⟨?_, hproper.renderable, hproper.change⟩
    cases ht : e.target with
    | keyboard => exact .inl rfl
    | mouse => exact .inr rfl
    | media =>
      -- No usage has a place in a media report.
      have hnone := hproper.renderable
      rw [ht] at hnone
      exact hnone.elim
  · intro t
    exact (hsound.tables t).count_le

/-- A press that is reported at once makes the link busy, and the release behind it waits. -/
theorem phases_of_run_press_release :
    ∃ a out, (create Layout.standard 500).run
        [(.ready, 0), (.link true, 5), (.key 4 true, 10), (.key 4 false, 12)] = .ok (a, out)
      ∧ a.phase = .busy ∧ a.backlog.size = 1 ∧ ∃ t, a.pipeline.inFlight.get t ≠ 0 := by
  obtain ⟨turns, a, hhist, hinputs, hstate⟩ := exists_history Layout.standard 500
    [(.ready, 0), (.link true, 5), (.key 4 true, 10), (.key 4 false, 12)]
    (fun _ a => a.phase = .busy && a.backlog.size = 1) (by decide +kernel)
  have hrun := hhist.run_eq_ok
  rw [hinputs] at hrun
  obtain ⟨hphase, hsize⟩ := Bool.and_eq_true_iff.mp hstate
  have hbusy := of_decide_eq_true hphase
  exact ⟨a, _, hrun, hbusy, of_decide_eq_true hsize, (phases_of_run hrun).2.2.1 hbusy⟩

end Aggregator

/-! ## Histories -/

/-- The invariant along a history. -/
theorem History.sound {layout : Layout} {window : UInt32} {turns : List Turn} {a : Aggregator}
    (h : History layout window turns a) : a.Sound :=
  Aggregator.sound_of_run h.run_eq_ok

/-- The update that the input of a turn asked for. -/
def Turn.update? (t : Turn) : Option Pending := t.before.layout.updateOf? t.input t.now

/-- The turn put an update off, and gave up everything else for it. -/
def Turn.resets (t : Turn) : Bool :=
  t.before.phase ≠ .idle && t.update?.any t.before.resets

theorem Turn.resets_of_idle {t : Turn} (h : t.before.phase = .idle) : t.resets = false := by
  simp [Turn.resets, h]

theorem Turn.resets_of_update?_eq_none {t : Turn} (h : t.update? = none) : t.resets = false := by
  simp [Turn.resets, h]

theorem Turn.resets_of_update?_eq_some {t : Turn} {e : Pending} (h : t.update? = some e)
    (hbusy : t.before.phase ≠ .idle) : t.resets = t.before.resets e := by
  simp [Turn.resets, h, hbusy]

end Peripheral
