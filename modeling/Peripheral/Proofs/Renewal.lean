import Peripheral.Proofs.FaultFree

/-!
# `Peripheral.Proofs.Renewal` — a host that goes away takes its session with it

What the end of a session leaves behind is not a new aggregator. The losses go on from where they were,
the device has been made ready or not, and motion that nobody was told of still waits. None of it
reaches a later host: nothing that an input does depends on the losses, only the ready notice asks whether
the device is ready, and motion waits unread until a host is there, at which point it is forgotten. So two
aggregators, one with a past and one without, go through the same inputs side by side and say the same.

## Contents
- `Losses.above`: losses counted on top of others.
- `withPast`, `step_withPast`: a past changes nothing that is said or done.
- `withMotion`, `step_withMotion`, `step_link_withMotion`: without a host, motion that waits is idle.
- `SameSession`, `SameSession.step`, `SameSession.sideBySide`: two aggregators side by side.
- `History.disconnect_renews`: the end of a session.
-/

namespace Peripheral

/-! ## Losses on top of others -/

/-- Losses counted on top of earlier ones, each cause by itself. -/
def Losses.above (base l : Losses) : Losses where
  purged := Saturating.raise base.purged l.purged.toNat
  tableFull := Saturating.raise base.tableFull l.tableFull.toNat
  resets := Saturating.raise base.resets l.resets.toNat
  refused := Saturating.raise base.refused l.refused.toNat
  unbound := Saturating.raise base.unbound l.unbound.toNat

namespace Losses

variable (base l : Losses)

@[simp] theorem above_none : base.above .none = base := by
  simp [above, none]

@[simp] theorem above_addPurged (n : Nat) : base.above (l.addPurged n) = (base.above l).addPurged n := by
  simp [above, addPurged, Saturating.raise_toNat_raise]

@[simp] theorem above_addTableFull : base.above l.addTableFull = (base.above l).addTableFull := by
  simp [above, addTableFull, Saturating.raise_toNat_raise]

@[simp] theorem above_addReset : base.above l.addReset = (base.above l).addReset := by
  simp [above, addReset, Saturating.raise_toNat_raise]

@[simp] theorem above_addRefused : base.above l.addRefused = (base.above l).addRefused := by
  simp [above, addRefused, Saturating.raise_toNat_raise]

@[simp] theorem above_addUnbound : base.above l.addUnbound = (base.above l).addUnbound := by
  simp [above, addUnbound, Saturating.raise_toNat_raise]

end Losses

namespace Aggregator

variable {a b c : Aggregator} {out : List Output} (base : Losses) (started : Bool)

/-! ## A past -/

/-- The aggregator with losses from before, and with its answer to whether the device is ready. -/
def withPast (b : Aggregator) (base : Losses) (started : Bool) : Aggregator :=
  { b with losses := base.above b.losses, started := started }

section

variable (b : Aggregator)

@[simp] theorem layout_withPast : (b.withPast base started).layout = b.layout := rfl

@[simp] theorem phase_withPast : (b.withPast base started).phase = b.phase := rfl

@[simp] theorem pipeline_withPast : (b.withPast base started).pipeline = b.pipeline := rfl

end

theorem report_withPast {t : Target} (h : b.report t = .ok (c, out)) :
    (b.withPast base started).report t = .ok (c.withPast base started, out) := by
  obtain ⟨⟨p, rs⟩, hsub, h⟩ := Fault.bind_eq_ok.mp h
  cases h
  exact Fault.bind_eq_ok.mpr ⟨(p, rs), hsub, rfl⟩

theorem apply_withPast {t : Target} {usage : UInt16} {change : Int16} {due : Bool}
    (h : b.apply t usage change = .ok (c, due)) :
    (b.withPast base started).apply t usage change = .ok (c.withPast base started, due) := by
  obtain ⟨⟨table, effect⟩, hupd, h⟩ := Fault.bind_eq_ok.mp h
  refine Fault.bind_eq_ok.mpr ⟨(table, effect), hupd, ?_⟩
  cases effect with
  | changed | unheld =>
    cases h
    rfl
  | noRoom =>
    cases h
    simp [withPast, pure, Except.pure]

theorem drainFrom_withPast {l : List Pending} (h : b.drainFrom l = .ok (c, out)) :
    (b.withPast base started).drainFrom l = .ok (c.withPast base started, out) := by
  induction l generalizing b with
  | nil =>
    unfold drainFrom at h ⊢
    dsimp only at h ⊢
    split at h
    · rename_i hpending
      rw [pipeline_withPast, if_pos hpending]
      exact report_withPast base started h
    · rename_i hpending
      rw [pipeline_withPast, if_neg hpending]
      cases h
      rfl
  | cons e rest ih =>
    unfold drainFrom at h ⊢
    obtain ⟨⟨d, due⟩, happly, h⟩ := Fault.bind_eq_ok.mp h
    refine Fault.bind_eq_ok.mpr ⟨(d.withPast base started, due), apply_withPast base started happly, ?_⟩
    cases due with
    | true => exact report_withPast base started h
    | false => exact ih h

theorem defer_withPast (b : Aggregator) (base : Losses) (started : Bool) (e : Pending) :
    (b.withPast base started).defer e = (b.defer e).withPast base started := by
  unfold defer withPast
  dsimp only
  split <;> split <;> simp

theorem update_withPast {e : Pending} (h : b.update e = .ok (c, out)) :
    (b.withPast base started).update e = .ok (c.withPast base started, out) := by
  unfold update at h ⊢
  rw [phase_withPast]
  cases hphase : b.phase with
  | idle =>
    rw [hphase] at h
    obtain ⟨⟨d, due⟩, happly, h⟩ := Fault.bind_eq_ok.mp h
    refine Fault.bind_eq_ok.mpr ⟨(d.withPast base started, due), apply_withPast base started happly, ?_⟩
    cases due with
    | true => exact report_withPast base started h
    | false =>
      cases h
      rfl
  | disconnected | busy =>
    rw [hphase] at h
    cases h
    exact congrArg (fun d => Except.ok (d, [])) (b.defer_withPast base started e)

theorem key_withPast {key : UInt16} {pressed : Bool} {now : UInt32}
    (h : b.key key pressed now = .ok (c, out)) :
    (b.withPast base started).key key pressed now = .ok (c.withPast base started, out) := by
  unfold Aggregator.key at h ⊢
  rw [layout_withPast]
  cases hkey : b.layout.lookup key with
  | none =>
    rw [hkey] at h
    cases h
    simp [withPast, pure, Except.pure]
  | some bound =>
    rw [hkey] at h
    obtain ⟨⟨d, o⟩, hupdate, h⟩ := Fault.bind_eq_ok.mp h
    cases h
    exact Fault.bind_eq_ok.mpr ⟨_, update_withPast base started hupdate, rfl⟩

theorem reportMotion_withPast (h : b.reportMotion = .ok (c, out)) :
    (b.withPast base started).reportMotion = .ok (c.withPast base started, out) := by
  unfold reportMotion at h ⊢
  rw [phase_withPast]
  cases hphase : b.phase with
  | idle =>
    rw [hphase] at h
    exact report_withPast base started h
  | disconnected | busy =>
    rw [hphase] at h
    cases h
    rfl

theorem connect_withPast {now : UInt32} (h : b.connect now = .ok (c, out)) :
    (b.withPast base started).connect now = .ok (c.withPast base started, out) := by
  unfold connect at h ⊢
  split at h
  · rename_i hdown
    rw [phase_withPast, if_pos hdown]
    -- The losses of the past lie below those that the purge adds.
    have hmeeting : (b.withPast base started).meeting now = (b.meeting now).withPast base started := by
      simp [meeting, withPast]
    show ((b.withPast base started).meeting now).drain = _
    rw [hmeeting]
    exact drainFrom_withPast base started h
  · rename_i hup
    rw [phase_withPast, if_neg hup]
    cases h
    rfl

theorem disconnect_withPast (b : Aggregator) (base : Losses) (started : Bool) :
    (b.withPast base started).disconnect = b.disconnect.withPast base started := by
  unfold disconnect
  rw [phase_withPast]
  split <;> rfl

theorem resume_withPast (h : b.resume = .ok (c, out)) :
    (b.withPast base started).resume = .ok (c.withPast base started, out) := by
  unfold resume at h ⊢
  split at h
  · rename_i hdown
    rw [phase_withPast, if_pos hdown]
    cases h
    rfl
  · rename_i hup
    rw [phase_withPast, if_neg hup]
    exact drainFrom_withPast base started h

theorem delivered_withPast {t : Target} (h : b.delivered t = .ok (c, out)) :
    (b.withPast base started).delivered t = .ok (c.withPast base started, out) := by
  unfold Aggregator.delivered at h ⊢
  split at h
  · rename_i hnone
    rw [pipeline_withPast, if_pos hnone]
    cases h
    rfl
  · rename_i hsome
    rw [pipeline_withPast, if_neg hsome]
    obtain ⟨⟨d, o⟩, hresume, h⟩ := Fault.bind_eq_ok.mp h
    cases h
    exact Fault.bind_eq_ok.mpr ⟨_, resume_withPast base started hresume, rfl⟩

/-- **A past changes nothing that is said or done.** Only the ready notice asks for it. -/
theorem step_withPast {input : Input} {now : UInt32} (hready : input ≠ .ready)
    (h : b.step input now = .ok (c, out)) :
    (b.withPast base started).step input now = .ok (c.withPast base started, out) := by
  cases input with
  | key key pressed => exact key_withPast base started h
  | motion | wheel =>
    rw [step_of_isMotion _ rfl] at h ⊢
    obtain ⟨⟨d, o⟩, hmotion, h⟩ := Fault.bind_eq_ok.mp h
    cases h
    have hpast := reportMotion_withPast base started hmotion
    exact Fault.bind_eq_ok.mpr ⟨_, hpast, rfl⟩
  | delivered t => exact delivered_withPast base started h
  | link up =>
    cases up with
    | true => exact connect_withPast base started h
    | false =>
      cases h
      exact congrArg (fun d => Except.ok (d, [])) (b.disconnect_withPast base started)
  | ready => exact absurd rfl hready

/-! ## Motion that nobody was told of -/

/-- The aggregator with other motion that waits. -/
def withMotion (b : Aggregator) (m : Motion) : Aggregator :=
  { b with pipeline := { b.pipeline with motion := m } }

section

variable (b : Aggregator) (m : Motion)

@[simp] theorem layout_withMotion : (b.withMotion m).layout = b.layout := rfl

@[simp] theorem phase_withMotion : (b.withMotion m).phase = b.phase := rfl

@[simp] theorem inFlight_withMotion : (b.withMotion m).pipeline.inFlight = b.pipeline.inFlight := rfl

end

/-- A host that begins to listen is told of no motion from before. -/
theorem step_link_withMotion (hdown : b.phase = .disconnected) (m : Motion) (now : UInt32) :
    (b.withMotion m).step (.link true) now = b.step (.link true) now := by
  show (b.withMotion m).connect now = b.connect now
  unfold connect
  rw [phase_withMotion, if_pos hdown, if_pos hdown]
  rfl

theorem update_of_disconnected (hdown : b.phase = .disconnected) (e : Pending) :
    b.update e = .ok (b.defer e, []) := by
  unfold update
  rw [hdown]
  rfl

theorem reportMotion_of_disconnected (hdown : b.phase = .disconnected) :
    b.reportMotion = .ok (b, []) := by
  unfold reportMotion
  rw [hdown]
  rfl

theorem key_withMotion (hdown : b.phase = .disconnected) (m : Motion) {key : UInt16} {pressed : Bool}
    {now : UInt32} (h : b.key key pressed now = .ok (c, out)) :
    (b.withMotion m).key key pressed now = .ok (c.withMotion m, out) := by
  unfold Aggregator.key at h ⊢
  rw [layout_withMotion]
  cases hkey : b.layout.lookup key with
  | none =>
    rw [hkey] at h
    cases h
    rfl
  | some bound =>
    rw [hkey] at h
    obtain ⟨⟨d, o⟩, hupdate, h⟩ := Fault.bind_eq_ok.mp h
    rw [update_of_disconnected hdown] at hupdate
    cases hupdate
    cases h
    exact Fault.bind_eq_ok.mpr ⟨_, update_of_disconnected (b := b.withMotion m) hdown _, rfl⟩

/-- **Without a host, motion that waits is idle**: what is said and done, but for the motion itself, does not
    depend on it. -/
theorem step_withMotion (hsound : b.Sound) {input : Input} {now : UInt32} (hdown : b.phase = .disconnected)
    (hlink : input ≠ .link true) (hready : input ≠ .ready) (h : b.step input now = .ok (c, out))
    (m : Motion) : ∃ n, (b.withMotion m).step input now = .ok (c.withMotion n, out) := by
  cases input with
  | key key pressed => exact ⟨m, key_withMotion hdown m h⟩
  | motion | wheel =>
    rw [step_of_isMotion b rfl, reportMotion_of_disconnected (by exact hdown)] at h
    cases h
    rw [step_of_isMotion _ rfl, reportMotion_of_disconnected (by exact hdown)]
    exact ⟨_, rfl⟩
  | delivered t =>
    -- Without a host nothing is on the way, so there is nothing to deliver.
    have hnone : b.pipeline.inFlight.get t = 0 := by
      rw [(hsound.disconnected hdown).2, PerTarget.get_same]
    change b.delivered t = _ at h
    unfold Aggregator.delivered at h
    rw [if_pos hnone] at h
    cases h
    refine ⟨m, ?_⟩
    show (b.withMotion m).delivered t = _
    unfold Aggregator.delivered
    rw [inFlight_withMotion, if_pos hnone]
    rfl
  | link up =>
    cases up with
    | true => exact absurd rfl hlink
    | false =>
      cases h
      refine ⟨m, congrArg (fun d => Except.ok (d, [])) ?_⟩
      rw [disconnect, disconnect, phase_withMotion, if_pos hdown, if_pos hdown]
  | ready => exact absurd rfl hready

/-- Without a host it stays so, unless one is announced. -/
theorem disconnected_of_step {input : Input} {now : UInt32} (hdown : b.phase = .disconnected)
    (hlink : input ≠ .link true) (h : b.step input now = .ok (c, out)) : c.phase = .disconnected := by
  have hdown' : b.isUp = false := by simp [isUp, hdown]
  have hup := isUp_of_step h
  rw [hdown'] at hup
  cases input with
  | link up =>
    cases up with
    | true => exact absurd rfl hlink
    | false => simpa [isUp, Input.link?] using hup
  | _ => simpa [isUp, Input.link?] using hup

/-! ## Side by side -/

/-- **Two aggregators in the same place of the same session.** They agree in everything but their pasts: `a`
    counts its losses on top of those of `base`, each of them knows for itself whether the device is
    ready, and without a host they may differ in the motion that waits. -/
structure SameSession (base : Losses) (a b : Aggregator) : Prop where
  layout : a.layout = b.layout
  tables : a.tables = b.tables
  backlog : a.backlog = b.backlog
  phase : a.phase = b.phase
  inFlight : a.pipeline.inFlight = b.pipeline.inFlight
  motion : b.phase ≠ .disconnected → a.pipeline.motion = b.pipeline.motion
  losses : a.losses = base.above b.losses

variable {base : Losses}

/-- The one with a past is the other one with that past, and with its own motion. -/
theorem SameSession.eq (h : SameSession base a b) :
    a = (b.withMotion a.pipeline.motion).withPast base a.started := by
  obtain ⟨layout, tables, backlog, phase, ⟨inFlight, motion⟩, losses, started⟩ := a
  obtain ⟨rfl, rfl, rfl, rfl, rfl, -, rfl⟩ := h
  rfl

/-- **One input, side by side.** What is said is the same, and so is the place in the session. Motion that is
    the same stays so, and once a host listens it is. -/
theorem SameSession.step (h : SameSession base a b) (hsound : b.Sound) {input : Input} {now : UInt32}
    (hready : input ≠ .ready) (hstep : b.step input now = .ok (c, out)) :
    ∃ d, a.step input now = .ok (d, out) ∧ SameSession base d c
      ∧ (a.pipeline.motion = b.pipeline.motion ∨ input = .link true →
        d.pipeline.motion = c.pipeline.motion) := by
  have halike : ∀ n, (c.phase ≠ .disconnected → n = c.pipeline.motion) →
      SameSession base ((c.withMotion n).withPast base a.started) c := by
    intro n hn
    exact ⟨rfl, rfl, rfl, rfl, rfl, hn, rfl⟩
  by_cases hsame : a.pipeline.motion = b.pipeline.motion ∨ input = .link true
  · have hfirst : (b.withMotion a.pipeline.motion).step input now = .ok (c, out) := by
      by_cases hmotion : a.pipeline.motion = b.pipeline.motion
      · rw [hmotion]
        exact hstep
      · -- Only without a host can the motion differ, and a host makes it be forgotten.
        have hdown : b.phase = .disconnected := Decidable.byContradiction fun hup => hmotion (h.motion hup)
        rw [hsame.resolve_left hmotion] at hstep ⊢
        rw [step_link_withMotion hdown]
        exact hstep
    rw [h.eq]
    have hpast := step_withPast base a.started hready hfirst
    exact ⟨_, hpast, halike c.pipeline.motion fun _ => rfl, fun _ => rfl⟩
  · obtain ⟨hmotion, hlink⟩ := not_or.mp hsame
    have hdown : b.phase = .disconnected := Decidable.byContradiction fun hup => hmotion (h.motion hup)
    have hstill : c.phase = .disconnected := disconnected_of_step hdown hlink hstep
    obtain ⟨n, hfirst⟩ := step_withMotion hsound hdown hlink hready hstep a.pipeline.motion
    have hpast := step_withPast base a.started hready hfirst
    rw [← h.eq] at hpast
    exact ⟨_, hpast, halike n fun hup => absurd hstill hup, fun heither => absurd heither hsame⟩

/-- **Two aggregators go through the same inputs side by side.** Both runs end without a fault. In each of
    their turns they say the same, and are in the same place of the same session afterwards. Motion
    that waits is the same from the beginning on if it is so there, and else from the first input on
    that brings a host. -/
def SideBySide (base : Losses) (a b : Aggregator) (inputs : List (Input × UInt32)) : Prop :=
  ∃ older newer a' b', a.record inputs = .ok (older, a') ∧ b.record inputs = .ok (newer, b')
    ∧ older.length = inputs.length ∧ newer.length = inputs.length
    ∧ ∀ i t u, older[i]? = some t → newer[i]? = some u →
      t.said = u.said ∧ SameSession base t.after u.after
        ∧ ((a.pipeline.motion = b.pipeline.motion ∨ ∃ j ∈ inputs.take (i + 1), j.1 = .link true) →
          t.after.pipeline.motion = u.after.pipeline.motion)

/-- **Any inputs, side by side.** -/
theorem SameSession.sideBySide (h : SameSession base a b) (hsound : b.Sound) {inputs : List (Input × UInt32)}
    (hready : ∀ i ∈ inputs, i.1 ≠ .ready) : SideBySide base a b inputs := by
  induction inputs generalizing a b with
  | nil => exact ⟨[], [], a, b, rfl, rfl, rfl, rfl, by simp⟩
  | cons i rest ih =>
    obtain ⟨input, now⟩ := i
    obtain ⟨hfirst, hrest⟩ := List.forall_mem_cons.mp hready
    obtain ⟨c, out, hnewer⟩ := hsound.exists_step (fun hinput => absurd hinput hfirst) now
    obtain ⟨d, holder, hsame, hmotion⟩ := h.step hsound hfirst hnewer
    obtain ⟨older, newer, a', b', hold, hnew, hlold, hlnew, hturns⟩ := ih hsame (hsound.step hnewer) hrest
    refine ⟨_, _, a', b', record_cons holder hold, record_cons hnewer hnew, by simp [hlold],
      by simp [hlnew], ?_⟩
    intro i t u ht hu
    cases i with
    | zero =>
      cases ht
      cases hu
      refine ⟨rfl, hsame, ?_⟩
      rintro (heq | ⟨j, hj, hlink⟩)
      · exact hmotion (.inl heq)
      · rw [Nat.zero_add, List.take_one, List.head?_cons] at hj
        cases List.mem_singleton.mp hj
        exact hmotion (.inr hlink)
    | succ i =>
      obtain ⟨hsaid, hafter, hlater⟩ := hturns i t u ht hu
      refine ⟨hsaid, hafter, ?_⟩
      rintro (heq | ⟨j, hj, hlink⟩)
      · exact hlater (.inl (hmotion (.inl heq)))
      · rw [List.take_succ_cons] at hj
        rcases List.mem_cons.mp hj with rfl | hj
        · exact hlater (.inl (hmotion (.inr hlink)))
        · exact hlater (.inr ⟨j, hj, hlink⟩)

/-! ## The end of a session -/

/-- Without its session an aggregator is in the place of a new one. -/
theorem SameSession.disconnect {layout : Layout} {window : UInt32} {turns : List Turn}
    (h : History layout window turns a) (hup : a.phase ≠ .disconnected) :
    SameSession a.losses a.disconnect (create layout window) := by
  have hsound := h.sound
  rw [Aggregator.disconnect, if_neg hup, hsound.map_clear]
  refine ⟨h.layout_eq, rfl, ?_, rfl, rfl, fun hphase => absurd rfl hphase, by simp [create]⟩
  show Backlog.mk _ _ _ = _
  rw [hsound.capacity, h.window_eq]
  rfl

end Aggregator

/-- **A host that goes away takes its session with it.** Let an aggregator be with a host, idle or busy,
    after any history. The news that the host is gone makes it say nothing, and whatever comes then other
    than the ready notice, it goes through it side by side with a new aggregator of the same layout and
    window: input by input they say the same and have the same phase, tables, backlog and reports on the
    way. The losses are those of the new one on top of what had been lost before, and only until the next
    host may other motion wait. -/
theorem History.disconnect_renews {layout : Layout} {window : UInt32} {turns : List Turn} {a : Aggregator}
    (h : History layout window turns a) (hup : a.phase ≠ .disconnected) (now : UInt32)
    {inputs : List (Input × UInt32)} (hready : ∀ i ∈ inputs, i.1 ≠ .ready) :
    a.step (.link false) now = .ok (a.disconnect, [])
      ∧ Aggregator.SameSession a.losses a.disconnect (.create layout window)
      ∧ Aggregator.SideBySide a.losses a.disconnect (.create layout window) inputs := by
  have hsame := Aggregator.SameSession.disconnect h hup
  exact ⟨rfl, hsame, hsame.sideBySide (Aggregator.sound_create layout window) hready⟩

/-- A session that ends on a busy link, with a button held, updates and motion that wait and a loss, and two
    sessions behind it. -/
theorem disconnect_renews_busy :
    ∃ turns a, History Layout.standard 500 turns a
      ∧ turns.map Turn.stimulus
        = [(.ready, 0), (.link true, 0), (.key 1 true, 10), (.motion 7 (-7), 11), (.key 4 true, 12),
          (.key 4 false, 13), (.key 99 true, 14)]
      ∧ a.phase = .busy ∧ a.backlog.size = 2 ∧ a.tables.mouse.isEmpty = false
      ∧ a.pipeline.motion ≠ .zero ∧ a.losses ≠ .none
      ∧ a.step (.link false) 20 = .ok (a.disconnect, [])
      ∧ Aggregator.SameSession a.losses a.disconnect (.create Layout.standard 500)
      ∧ Aggregator.SideBySide a.losses a.disconnect (.create Layout.standard 500)
        [(.motion 1 1, 21), (.key 5 true, 22), (.delivered .mouse, 23), (.link true, 24), (.motion 2 0, 25),
          (.delivered .keyboard, 26), (.link false, 27), (.wheel 3, 28), (.link true, 29), (.wheel 1, 30)] := by
  obtain ⟨turns, a, h, hinputs, hstate⟩ := exists_history Layout.standard 500
    [(.ready, 0), (.link true, 0), (.key 1 true, 10), (.motion 7 (-7), 11), (.key 4 true, 12),
      (.key 4 false, 13), (.key 99 true, 14)]
    (fun _ a => decide (a.phase = .busy ∧ a.backlog.size = 2 ∧ a.tables.mouse.isEmpty = false
      ∧ a.pipeline.motion ≠ .zero ∧ a.losses ≠ .none)) (by decide +kernel)
  obtain ⟨hphase, hsize, htable, hmotion, hlosses⟩ := of_decide_eq_true hstate
  exact ⟨turns, a, h, hinputs, hphase, hsize, htable, hmotion, hlosses,
    h.disconnect_renews (by simp [hphase]) 20 (by decide)⟩

end Peripheral
