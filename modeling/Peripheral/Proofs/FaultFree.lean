import Peripheral.Proofs.Bursts
import Peripheral.Proofs.TableUpdates
import Peripheral.Proofs.WordArithmetic

/-!
# `Peripheral.Proofs.FaultFree` — no run of a checked layout faults

Every fault is far from what rules it out. A layout is checked once; its usages then travel through the
backlog and the tables, over runs of any length, before a report shows them. The invariant of the phases
carries what was checked all the way: tables fit their reports, and updates that wait are proper. So every
report can be rendered and every update applied, and the only fault that is left is a second start.

## Contents
- `Pipeline.exists_submit`: reports that can be submitted.
- `exists_apply`, `exists_drainFrom`: updates that can be applied.
- `Sound.exists_step`: one input.
- `exists_run`: any number of them, with the arithmetic that they rest on.
-/

namespace Peripheral

/-! ## Reports -/

/-- **Reports of tables that fit can be submitted.** -/
theorem Pipeline.exists_submit {tables : PerTarget HoldTable} (hfits : ∀ t, (tables.get t).Fits t) (p : Pipeline)
    {t : Target} (ht : t ≠ .media) : ∃ q rs, p.submit tables t = .ok (q, rs) := by
  have hkeys : ∀ g ∈ tables.keyboard.holds, g.usage.toNat ≤ 255 := fun g hg => ((hfits .keyboard).renderable g hg).2
  obtain ⟨k, moving, still, hrenders⟩ := exists_renders hkeys (hfits .mouse).renderable p.motion
  exact ⟨_, _, hrenders.submit ht⟩

/-- A proper update is for a report that exists, of a usage that can be held, and changes something. -/
theorem Pending.Proper.target_ne_media {e : Pending} (h : e.Proper) : e.target ≠ .media := by
  intro hmedia
  have hnone := h.renderable
  rw [hmedia] at hnone
  exact hnone

theorem Pending.Proper.usage_ne_zero {e : Pending} (h : e.Proper) : e.usage ≠ 0 := by
  intro hzero
  have hrenderable := h.renderable
  rw [hzero] at hrenderable
  cases ht : e.target <;> rw [ht] at hrenderable
  · exact absurd hrenderable.1 (by decide)
  · exact absurd hrenderable.1 (by decide)
  · exact hrenderable

theorem Pending.Proper.change_ne_zero {e : Pending} (h : e.Proper) : e.change ≠ 0 := by
  rcases h.change with hup | hdown
  · rw [hup]
    decide
  · rw [hdown]
    decide

namespace Aggregator

variable {a b : Aggregator}

/-! ## Updates -/

theorem exists_report (hfits : ∀ t, (a.tables.get t).Fits t) {t : Target} (ht : t ≠ .media) :
    ∃ b out, a.report t = .ok (b, out) := by
  obtain ⟨q, rs, hq⟩ := a.pipeline.exists_submit hfits ht
  exact ⟨_, _, Fault.bind_eq_ok.mpr ⟨_, hq, rfl⟩⟩

/-- **A proper update can be applied**, and the tables still fit. -/
theorem exists_apply (hfits : ∀ t, (a.tables.get t).Fits t) {e : Pending} (he : e.Proper) :
    ∃ b due, a.apply e.target e.usage e.change = .ok (b, due) ∧ ∀ t, (b.tables.get t).Fits t := by
  obtain ⟨table, effect, hupd⟩ := (hfits e.target).wellFormed.exists_update he.usage_ne_zero
    he.change_ne_zero
  have hset := fits_set hfits he hupd
  cases effect with
  | changed | unheld | noRoom => exact ⟨_, _, Fault.bind_eq_ok.mpr ⟨_, hupd, rfl⟩, hset⟩

/-- Proper updates can be gone on with. -/
theorem exists_drainFrom {l : List Pending} (hfits : ∀ t, (a.tables.get t).Fits t)
    (hproper : ∀ e ∈ l, e.Proper) : ∃ b out, a.drainFrom l = .ok (b, out) := by
  induction l generalizing a with
  | nil =>
    unfold drainFrom
    dsimp only
    split
    · exact exists_report (a := { a with backlog := a.backlog.clear, phase := .idle }) (t := .mouse) hfits
        (by decide)
    · exact ⟨_, _, rfl⟩
  | cons e rest ih =>
    obtain ⟨he, hrest⟩ := List.forall_mem_cons.mp hproper
    obtain ⟨b, due, happly, hafter⟩ := exists_apply
      (a := { a with backlog := { a.backlog with pending := rest } }) hfits he
    unfold drainFrom
    cases due with
    | true =>
      obtain ⟨c, out, hreport⟩ := exists_report hafter he.target_ne_media
      exact ⟨c, out, Fault.bind_eq_ok.mpr ⟨_, happly, hreport⟩⟩
    | false =>
      obtain ⟨c, out, hdrain⟩ := ih hafter hrest
      exact ⟨c, out, Fault.bind_eq_ok.mpr ⟨_, happly, hdrain⟩⟩

theorem InShape.exists_drain (h : a.InShape) : ∃ b out, a.drain = .ok (b, out) :=
  exists_drainFrom h.tables h.proper

/-! ## Inputs -/

/-- A key event never faults. -/
theorem InShape.exists_key (h : a.InShape) (key : UInt16) (pressed : Bool) (now : UInt32) :
    ∃ b out, a.key key pressed now = .ok (b, out) := by
  unfold Aggregator.key
  cases hkey : a.layout.lookup key with
  | none => exact ⟨_, _, rfl⟩
  | some bound =>
    have he : Pending.Proper ⟨bound.target, bound.usage, if pressed then 1 else -1, now⟩ := by
      have hask : a.layout.updateOf? (.key key pressed) now
          = some ⟨bound.target, bound.usage, if pressed then 1 else -1, now⟩ := by
        rw [Layout.updateOf?, hkey]
        rfl
      exact Layout.proper_of_updateOf? hask
    have hupdate : ∃ b out, a.update ⟨bound.target, bound.usage, if pressed then 1 else -1, now⟩
        = .ok (b, out) := by
      unfold Aggregator.update
      cases a.phase with
      | idle =>
        obtain ⟨b, due, happly, hfits⟩ := exists_apply h.tables he
        cases due with
        | true =>
          obtain ⟨c, out, hreport⟩ := exists_report hfits he.target_ne_media
          exact ⟨c, out, Fault.bind_eq_ok.mpr ⟨_, happly, hreport⟩⟩
        | false => exact ⟨b, [], Fault.bind_eq_ok.mpr ⟨_, happly, rfl⟩⟩
      | disconnected | busy => exact ⟨_, _, rfl⟩
    obtain ⟨b, out, hb⟩ := hupdate
    exact ⟨_, _, Fault.bind_eq_ok.mpr ⟨_, hb, rfl⟩⟩

/-- Motion never faults. -/
theorem InShape.exists_reportMotion (h : a.InShape) : ∃ b out, a.reportMotion = .ok (b, out) := by
  unfold reportMotion
  cases a.phase with
  | idle => exact exists_report (t := .mouse) h.tables (by decide)
  | disconnected | busy => exact ⟨_, _, rfl⟩

/-- An acknowledgement never faults, whatever it is of. -/
theorem InShape.exists_delivered (h : a.InShape) (t : Target) :
    ∃ b out, a.delivered t = .ok (b, out) := by
  have hresume : ∃ b out, a.resume = .ok (b, out) := by
    unfold resume
    split
    · exact ⟨_, _, rfl⟩
    · exact h.exists_drain
  obtain ⟨b, out, hb⟩ := hresume
  unfold Aggregator.delivered
  split
  · exact ⟨_, _, rfl⟩
  · exact ⟨_, _, Fault.bind_eq_ok.mpr ⟨_, hb, rfl⟩⟩

/-- **No input faults**, unless it is a second start. -/
theorem Sound.exists_step (h : a.Sound) {input : Input} (hready : input = .ready → a.started = false)
    (now : UInt32) : ∃ b out, a.step input now = .ok (b, out) := by
  have hfeel : ∀ input, InShape { a with pipeline := a.pipeline.feel input } := by
    intro input
    exact { h with media := by rw [Pipeline.inFlight_feel]; exact h.media }
  cases input with
  | key key pressed => exact h.exists_key key pressed now
  | motion dx dy =>
    obtain ⟨b, out, hb⟩ := (hfeel (.motion dx dy)).exists_reportMotion
    exact ⟨_, _, Fault.bind_eq_ok.mpr ⟨_, hb, rfl⟩⟩
  | wheel amount =>
    obtain ⟨b, out, hb⟩ := (hfeel (.wheel amount)).exists_reportMotion
    exact ⟨_, _, Fault.bind_eq_ok.mpr ⟨_, hb, rfl⟩⟩
  | delivered t => exact h.exists_delivered t
  | link up =>
    cases up with
    | true =>
      show ∃ b out, a.connect now = .ok (b, out)
      unfold connect
      split
      · exact (h.toInShape.meeting now).exists_drain
      · exact ⟨_, _, rfl⟩
    | false => exact ⟨_, _, rfl⟩
  | ready =>
    have hstart : a.start = .ok { a with started := true, backlog := a.backlog.clear } := by
      unfold start
      rw [if_neg (by simp [hready rfl])]
      rfl
    exact ⟨_, _, Fault.bind_eq_ok.mpr ⟨_, hstart, rfl⟩⟩

/-! ## Runs -/

theorem DrainsTo.started_eq {l : List Pending} {out : List Output} (h : a.DrainsTo l b out) :
    b.started = a.started := by
  cases h <;> rfl

/-- Only the ready notice starts the aggregator. -/
theorem started_of_step {input : Input} {now : UInt32} {out : List Output}
    (h : a.step input now = .ok (b, out)) : b.started = (a.started || decide (input = .ready)) := by
  cases outcome_of_step h with
  | moved hmotion | moving hmotion =>
    have hne : input ≠ .ready := by
      rintro rfl
      cases hmotion
    simp [hne]
  | delivered hsome hup hdrain => simp [hdrain.started_eq]
  | connected hdown hdrain => simp [hdrain.started_eq, meeting]
  | disconnected hup => simp [disconnect, hup]
  | started hnew => simp
  | deferred he hbusy => simp [defer]
  | _ => simp

/-- From a sound state, every run goes well that starts the aggregator once at most. -/
theorem Sound.exists_run (h : a.Sound) {inputs : List (Input × UInt32)}
    (hready : a.started.toNat + inputs.countP (fun i => i.1 = .ready) ≤ 1) :
    ∃ b out, a.run inputs = .ok (b, out) := by
  induction inputs generalizing a with
  | nil => exact ⟨a, [], rfl⟩
  | cons i rest ih =>
    obtain ⟨input, now⟩ := i
    rw [List.countP_cons] at hready
    have hfirst : input = .ready → a.started = false := by
      rintro rfl
      rw [if_pos (decide_eq_true rfl)] at hready
      exact Bool.toNat_eq_zero.mp (by omega)
    obtain ⟨b, out, hstep⟩ := h.exists_step hfirst now
    have hrest : b.started.toNat + rest.countP (fun i => i.1 = .ready) ≤ 1 := by
      rw [started_of_step hstep]
      by_cases hinput : input = .ready
      · rw [hfirst hinput] at hready ⊢
        simpa [hinput, Nat.add_comm] using hready
      · simpa [hinput] using hready
    obtain ⟨c, p, hrun⟩ := ih (h.step hstep) hrest
    exact ⟨c, out ++ p, run_cons_eq_ok.mpr ⟨b, out, p, hstep, hrun, rfl⟩⟩

/-- **No run of a checked layout faults.** Whatever the inputs are and whenever they come, as long as the ready
    notice is among them once at most, the run ends without a fault. In the state that it ends in, as in
    every state on the way, which is the last one of a shorter run:
    - every mouse usage that is held shifts its bit by less than the width of the bitmap;
    - no purge of the backlog, or of what an earlier purge has left of it, overflows a word, neither in its
      sums of changes nor in its positions, and it drops what the unbounded purge drops. -/
theorem run_faultFree (layout : Layout) (window : UInt32) {inputs : List (Input × UInt32)}
    (hready : inputs.countP (fun i => i.1 = .ready) ≤ 1) :
    ∃ a out, (create layout window).run inputs = .ok (a, out)
      ∧ (∀ h ∈ a.tables.mouse.holds, 0 < h.usage.toNat ∧ h.usage.toNat - 1 < 8)
      ∧ ∀ n now, { a.backlog with pending := a.backlog.pending.drop n }.sweep? now
        = some ({ a.backlog with pending := a.backlog.pending.drop n }.purgeable now) := by
  obtain ⟨a, out, hrun⟩ := (sound_create layout window).exists_run
    (by rw [show (create layout window).started.toNat = 0 from rfl, Nat.zero_add]; exact hready)
  have hsound := sound_of_run hrun
  refine ⟨a, out, hrun, ?_, ?_⟩
  · intro h hh
    obtain ⟨hlow, hhigh⟩ : Renderable .mouse h.usage := (hsound.tables .mouse).renderable h hh
    rw [Limits.mouseButtons] at hhigh
    omega
  · intro n now
    apply Backlog.sweep?_eq_some
    have hsize := hsound.size
    rw [Backlog.size, Limits.backlogPlaces] at hsize
    show (a.backlog.pending.drop n).length ≤ 65535
    rw [List.length_drop]
    omega

/-- A run with a stray acknowledgement of a media report, a mouse button and a key. -/
theorem run_faultFree_stray_media :
    [(.ready, 0), (.link true, 0), (.key 4 true, 10), (.delivered .media, 11), (.key 1 true, 12),
        (.delivered .keyboard, 13)].countP (fun i : Input × UInt32 => i.1 = .ready) ≤ 1
      ∧ ∃ a out, (create Layout.standard 500).run
          [(.ready, 0), (.link true, 0), (.key 4 true, 10), (.delivered .media, 11), (.key 1 true, 12),
            (.delivered .keyboard, 13)] = .ok (a, out)
        ∧ (∀ h ∈ a.tables.mouse.holds, 0 < h.usage.toNat ∧ h.usage.toNat - 1 < 8)
        ∧ ∀ n now, { a.backlog with pending := a.backlog.pending.drop n }.sweep? now
          = some ({ a.backlog with pending := a.backlog.pending.drop n }.purgeable now) :=
  ⟨by decide, run_faultFree Layout.standard 500 (by decide)⟩

end Aggregator

end Peripheral
