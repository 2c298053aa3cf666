import Peripheral.Proofs.Phases
import Peripheral.Proofs.Traffic

/-!
# `Peripheral.Proofs.Pacing` — how many reports are on the way

A link waits for one report at a time, and reports are acknowledged in the order in which they were sent.
Even so, more and more of them can be on the way: a companion goes out whenever a kind has run out, and the
link counts as idle again after the first acknowledgement. What is on the way is what the companions of
the session have put there, and it takes many acknowledgements to let them pile up.

## Contents
- `Traffic.after`, `traffic`: the traffic of the session that a history is in.
- `InOrder`: acknowledgements come in the order of the reports.
- `Traffic.Matches`, `Traffic.follows_of_step`: the counters of the pipeline are the traffic.
- `History.inFlight_bounded_iff`: when no more reports are on the way than the channel has room for.
- `History.total_mul_total_le`: how many acknowledgements a number of reports takes.
- `crowding`, `inFlight_crowding`: a run after which there are more.
-/

namespace Peripheral

open Aggregator

/-! ## The traffic of a history -/

/-- The kind of report that an output is. -/
def Output.kind? : Output → Option Target
  | .report r => some r.target
  | .activity => none

/-- The kinds of the reports of a turn, in their order. -/
def Turn.sent (t : Turn) : List Target := t.said.filterMap Output.kind?

/-- The traffic after a turn. It ends with its session. -/
def Traffic.after (l : Traffic) (t : Turn) : Traffic :=
  if t.input = .link false then blank
  else
    { owed := (if t.input.acknowledged?.isSome then l.owed.tail else l.owed) ++ t.sent
      busy := t.after.phase = .busy
      companions := l.companions + (t.sent.length - 1)
      heard := l.heard + t.input.acknowledged?.isSome.toNat
      spare := l.spare + (t.input.acknowledged?.isSome && t.before.phase = .idle).toNat }

/-- What has been sent and heard in the session that a history is in. -/
def traffic (turns : List Turn) : Traffic := turns.foldl Traffic.after Traffic.blank

@[simp] theorem traffic_append_singleton (turns : List Turn) (t : Turn) :
    traffic (turns ++ [t]) = (traffic turns).after t := by
  rw [traffic, List.foldl_append]
  rfl

/-- **Acknowledgements come in order**: one that comes in this turn is for the oldest report of the session
    that has none yet. -/
def InOrder (pre : List Turn) (turn : Turn) : Prop :=
  turn.input.acknowledged? = none ∨ turn.input.acknowledged? = (traffic pre).owed.head?

instance (pre : List Turn) (turn : Turn) : Decidable (InOrder pre turn) :=
  inferInstanceAs (Decidable (_ ∨ _))

theorem filterMap_kind?_map_report (rs : List Report) :
    (rs.map Output.report).filterMap Output.kind? = rs.map Report.target := by
  rw [List.filterMap_map, ← List.filterMap_eq_map]
  rfl

theorem filterMap_kind?_append_activity (rs : List Report) :
    (rs.map Output.report ++ [Output.activity]).filterMap Output.kind? = rs.map Report.target := by
  rw [List.filterMap_append, filterMap_kind?_map_report]
  exact List.append_nil _

namespace Traffic

variable {l : Traffic} {turn : Turn}

/-- A turn that sends nothing, hears nothing and leaves the phase leaves the traffic. -/
theorem after_quiet (hinput : turn.input ≠ .link false) (hack : turn.input.acknowledged? = none)
    (hsent : turn.sent = []) (hbusy : l.busy = decide (turn.after.phase = .busy)) : l.after turn = l := by
  simp [after, hinput, hack, hsent, ← hbusy]

/-- A turn that only sends adds its batch. -/
theorem after_send {t : Target} (hinput : turn.input ≠ .link false)
    (hack : turn.input.acknowledged? = none) (hsent : turn.sent = batch l.owed t)
    (hbusy : turn.after.phase = .busy) :
    l.after turn = ⟨l.owed ++ batch l.owed t, true, l.companions + (companionsOf l.owed t).length,
      l.heard, l.spare⟩ := by
  simp [after, hinput, hack, hsent, hbusy, batch]

/-- An acknowledgement takes off the oldest report. -/
theorem after_acknowledged {t : Target} (hack : turn.input = .delivered t) :
    l.after turn = ⟨l.owed.tail ++ turn.sent, turn.after.phase = .busy,
      l.companions + (turn.sent.length - 1), l.heard + 1,
      l.spare + (decide (turn.before.phase = .idle)).toNat⟩ := by
  simp [after, hack, Input.acknowledged?]

end Traffic

/-! ## Counters -/

namespace Pipeline

/-- The reports on the way are these. -/
def Counts (p : Pipeline) (owed : List Target) : Prop :=
  ∀ t, (p.inFlight.get t).toNat = owed.count t

/-- Keyboard and mouse reports on the way. -/
def total (p : Pipeline) : Nat := p.inFlight.keyboard.toNat + p.inFlight.mouse.toNat

variable {p q : Pipeline} {owed : List Target}

/-- No kind but keyboard and mouse has reports, so together they are all there are. -/
theorem Counts.total_eq (h : p.Counts owed) (hkinds : ∀ t ∈ owed, t ≠ .media) :
    p.total = owed.length := by
  have hsplit : ∀ l : List Target, (∀ t ∈ l, t ≠ .media) →
      l.count .keyboard + l.count .mouse = l.length := by
    intro l hl
    induction l with
    | nil => rfl
    | cons x rest ih =>
      obtain ⟨hx, hrest⟩ := List.forall_mem_cons.mp hl
      have hsum := ih hrest
      cases x with
      | media => exact absurd rfl hx
      | keyboard | mouse =>
        simp only [List.count_cons, List.length_cons]
        simp
        omega
  rw [total, ← hsplit owed hkinds]
  exact congrArg₂ _ (h .keyboard) (h .mouse)

/-- Only the counters matter. -/
theorem Counts.congr (h : p.Counts owed) (hflight : q.inFlight = p.inFlight) : q.Counts owed := by
  intro t
  rw [hflight]
  exact h t

theorem Counts.inFlight_eq_zero_iff (h : p.Counts owed) (t : Target) :
    p.inFlight.get t = 0 ↔ t ∉ owed := by
  rw [← UInt32.toNat_inj, h t]
  exact List.count_eq_zero

/-- A counter with room left is raised by one. -/
theorem Counts.launch (h : p.Counts owed) (hroom : owed.length < 4294967295) (t : Target) :
    (p.launch t).Counts (owed ++ [t]) := by
  intro u
  rw [List.count_append, Pipeline.launch]
  by_cases hut : u = t
  · subst hut
    have hcount : owed.count u ≤ owed.length := List.count_le_length
    rw [PerTarget.get_set_self, Saturating.toNat_raise, h u, List.count_singleton_self]
    omega
  · rw [PerTarget.get_set_ne _ _ hut, h u, List.count_singleton, if_neg (by simpa using fun h => hut h.symm),
      Nat.add_zero]

theorem Counts.acknowledge {x : Target} (h : p.Counts (x :: owed)) :
    ((p.acknowledge? x).getD p).Counts owed := by
  have hsome : p.inFlight.get x ≠ 0 := by
    rw [Ne, h.inFlight_eq_zero_iff]
    simp
  intro u
  rw [acknowledge?, if_neg hsome, Option.getD_some]
  by_cases hux : u = x
  · subst hux
    have hone := h u
    rw [List.count_cons_self] at hone
    have hle : 1 ≤ p.inFlight.get u := by
      rw [UInt32.le_iff_toNat_le, hone]
      exact Nat.le_add_left _ _
    rw [PerTarget.get_set_self, UInt32.toNat_sub_of_le _ _ hle, hone]
    rfl
  · rw [PerTarget.get_set_ne _ _ hux, h u, List.count_cons_of_ne fun h => hux h.symm]

/-- **Mouse reports are submitted by the batch.** -/
theorem Submits.mouse_batch {tables : PerTarget HoldTable} {rs : List Report}
    (h : Submits tables p .mouse q rs) (hcounts : p.Counts owed)
    (hroom : owed.length + 2 ≤ 4294967295) :
    rs.map Report.target = batch owed .mouse ∧ q.Counts (owed ++ batch owed .mouse) := by
  have hzero := hcounts.inFlight_eq_zero_iff .mouse
  have hfirst := hcounts.launch (by omega) .mouse
  cases h with
  | mouse hr hmore =>
    have hmem : Target.mouse ∈ owed := Decidable.not_not.mp fun h => hmore (hzero.mpr h)
    rw [batch, companionsOf, if_pos hmem]
    exact ⟨rfl, hfirst⟩
  | mousePair hr hs hnone =>
    have hsecond := hfirst.launch (by simp; omega) .mouse
    have htwo : ((p.launch .mouse).launch .mouse).inFlight = p.inFlight.set .mouse 2 := by
      show (p.inFlight.set .mouse _).set .mouse _ = _
      have hnone : p.inFlight.get .mouse = 0 := hnone
      simp only [PerTarget.set, Pipeline.launch, hnone]
      rfl
    rw [batch, companionsOf, if_neg (hzero.mp hnone)]
    refine ⟨rfl, ?_⟩
    intro u
    rw [← htwo, hsecond u, List.append_assoc]
    rfl

/-- **Reports are submitted by the batch**, as long as the counters have room. -/
theorem Submits.batch {tables : PerTarget HoldTable} {t : Target} {rs : List Report}
    (h : Submits tables p t q rs) (hcounts : p.Counts owed) (hroom : owed.length + 3 ≤ 4294967295) :
    t ≠ .media ∧ rs.map Report.target = Peripheral.batch owed t
      ∧ q.Counts (owed ++ Peripheral.batch owed t) := by
  cases t with
  | mouse => exact ⟨by decide, h.mouse_batch hcounts (by omega)⟩
  | media => cases h
  | keyboard =>
    have hzero := hcounts.inFlight_eq_zero_iff .keyboard
    have hfirst := hcounts.launch (by omega) .keyboard
    refine ⟨by decide, ?_⟩
    cases h with
    | keyboard hk hmore =>
      have hmem : Target.keyboard ∈ owed := Decidable.not_not.mp fun h => hmore (hzero.mpr h)
      rw [Peripheral.batch, companionsOf, if_pos hmem]
      exact ⟨rfl, hfirst⟩
    | keyboardFirst hk hnone hmouse =>
      obtain ⟨hkinds, hafter⟩ := hmouse.mouse_batch hfirst (by simp; omega)
      have hbatch : Peripheral.batch owed .keyboard
          = .keyboard :: Peripheral.batch (owed ++ [.keyboard]) .mouse := by
        by_cases hmem : Target.mouse ∈ owed <;>
          simp [Peripheral.batch, companionsOf, hzero.mp hnone, hmem]
      rw [hbatch]
      refine ⟨by rw [List.map_cons, hkinds]; rfl, ?_⟩
      rw [List.append_assoc] at hafter
      exact hafter

end Pipeline

namespace Traffic

/-- The traffic is that of the state. -/
structure Matches (l : Traffic) (a : Aggregator) : Prop where
  counts : a.pipeline.Counts l.owed
  busy : l.busy = decide (a.phase = .busy)
  disconnected : a.phase = .disconnected → l = blank

/-- Without a host there is no traffic. -/
theorem matches_blank {a : Aggregator} (hsound : a.Sound) (hdown : a.phase = .disconnected) :
    blank.Matches a where
  counts := by
    intro t
    rw [(hsound.disconnected hdown).2, PerTarget.get_same]
    rfl
  busy := by rw [hdown]; rfl
  disconnected _ := rfl

variable {l : Traffic} {turn : Turn}

/-- With a host, the traffic is that of the state if it has the reports and waits as the link does. -/
theorem matches_of_up {a : Aggregator} (hup : a.phase ≠ .disconnected)
    (hcounts : a.pipeline.Counts l.owed) (hbusy : l.busy = decide (a.phase = .busy)) : l.Matches a where
  counts := hcounts
  busy := hbusy
  disconnected hdown := absurd hdown hup

/-- The traffic goes on with a turn, and is that of the state after it. -/
def Follows (l : Traffic) (turn : Turn) : Prop :=
  l.Step (l.after turn) ∧ (l.after turn).Matches turn.after

/-- A turn that sends nothing, hears nothing and leaves the phase. -/
theorem Matches.quiet (h : l.Matches turn.before) (hinput : turn.input ≠ .link false)
    (hack : turn.input.acknowledged? = none) (hsent : turn.sent = [])
    (hflight : turn.after.pipeline.inFlight = turn.before.pipeline.inFlight)
    (hphase : turn.after.phase = turn.before.phase) : l.Follows turn := by
  have hafter : l.after turn = l := after_quiet hinput hack hsent (by rw [hphase]; exact h.busy)
  rw [Follows, hafter]
  refine ⟨.quiet, h.counts.congr hflight, by rw [hphase]; exact h.busy, ?_⟩
  intro hdown
  rw [hphase] at hdown
  exact h.disconnected hdown

/-- A turn that reports while the link does not wait. -/
theorem Matches.send {p : Pipeline} {tables : PerTarget HoldTable} {t : Target} {rs : List Report}
    (h : l.Matches turn.before) (hroom : l.owed.length + 3 ≤ 4294967295)
    (hinput : turn.input ≠ .link false) (hack : turn.input.acknowledged? = none)
    (hwait : turn.before.phase ≠ .busy) (hflight : p.inFlight = turn.before.pipeline.inFlight)
    (hsub : Pipeline.Submits tables p t turn.after.pipeline rs)
    (hsent : turn.sent = rs.map Report.target) (hphase : turn.after.phase = .busy) :
    l.Follows turn := by
  obtain ⟨ht, hkinds, hafter⟩ := hsub.batch (h.counts.congr hflight) hroom
  have hidle : l.busy = false := h.busy.trans (decide_eq_false hwait)
  rw [Follows, after_send hinput hack (hsent.trans hkinds) hphase]
  refine ⟨?_, matches_of_up (by simp [hphase]) hafter (by rw [hphase]; rfl)⟩
  obtain ⟨owed, busy, c, n, s⟩ := l
  subst hidle
  exact .send ht

/-- An acknowledgement that lets the link report. The report that it is for is still counted then. -/
theorem Matches.next {p : Pipeline} {tables : PerTarget HoldTable} {t u : Target} {rs : List Report}
    (h : l.Matches turn.before) (hroom : l.owed.length + 3 ≤ 4294967295)
    (hack : turn.input = .delivered t) (hhead : l.owed.head? = some t)
    (hwait : turn.before.phase = .busy) (hsub : Pipeline.Submits tables turn.before.pipeline u p rs)
    (hsent : turn.sent = rs.map Report.target) (hphase : turn.after.phase = .busy)
    (hafter : turn.after.pipeline = (p.acknowledge? t).getD p) : l.Follows turn := by
  obtain ⟨hu, hkinds, hcounts⟩ := hsub.batch h.counts hroom
  have hbusy : l.busy = true := h.busy.trans (decide_eq_true hwait)
  obtain ⟨rest, hrest⟩ := List.head?_eq_some_iff.mp hhead
  have hl : l.after turn = ⟨rest ++ batch l.owed u, true,
      l.companions + (companionsOf l.owed u).length, l.heard + 1, l.spare⟩ := by
    rw [after_acknowledged hack, hsent, hkinds, hphase, hwait, hrest]
    rfl
  rw [Follows, hl]
  refine ⟨?_, matches_of_up (by simp [hphase]) ?_ (by rw [hphase]; rfl)⟩
  · obtain ⟨owed, busy, c, n, s⟩ := l
    dsimp only at hrest hbusy
    subst hrest hbusy
    exact .next hu
  · rw [hafter]
    apply Pipeline.Counts.acknowledge
    rw [hrest] at hcounts ⊢
    exact hcounts

/-- An acknowledgement after which the link has nothing to report. -/
theorem Matches.rest {t : Target} (h : l.Matches turn.before) (hack : turn.input = .delivered t)
    (hhead : l.owed.head? = some t) (hsent : turn.sent = []) (hphase : turn.after.phase = .idle)
    (hafter : turn.after.pipeline.inFlight
      = ((turn.before.pipeline.acknowledge? t).getD turn.before.pipeline).inFlight)
    (hup : turn.before.phase ≠ .disconnected) : l.Follows turn := by
  have hbusy := h.busy
  obtain ⟨rest, hrest⟩ := List.head?_eq_some_iff.mp hhead
  have hcounts : turn.after.pipeline.Counts rest := by
    have hall := h.counts
    rw [hrest] at hall
    exact hall.acknowledge.congr hafter
  rw [Follows, after_acknowledged hack, hsent, hphase, hrest]
  refine ⟨?_, matches_of_up (by simp [hphase]) (by simpa using hcounts) (by rw [hphase])⟩
  obtain ⟨owed, busy, c, n, s⟩ := l
  dsimp only at hrest hbusy ⊢
  subst hrest
  rw [List.tail_cons, List.append_nil]
  cases hp : turn.before.phase with
  | disconnected => exact absurd hp hup
  | idle =>
    rw [hp] at hbusy
    subst hbusy
    exact .spare
  | busy =>
    rw [hp] at hbusy
    subst hbusy
    exact .rest

end Traffic

/-- Going on with the updates that wait says nothing and leaves the link idle, or it reports, which it does
    for a reason. -/
theorem Aggregator.DrainsTo.says {a b : Aggregator} {waiting : List Pending} {out : List Output}
    (h : a.DrainsTo waiting b out) :
    (b.phase = .idle ∧ out = [] ∧ b.pipeline.inFlight = a.pipeline.inFlight) ∨
      ∃ tables t rs, Pipeline.Submits tables a.pipeline t b.pipeline rs ∧ b.phase = .busy
        ∧ out = rs.map Output.report ∧ (waiting ≠ [] ∨ a.pipeline.motion ≠ .zero) := by
  cases h with
  | update hl hskip hupd hsub => exact .inr ⟨_, _, _, hsub, rfl, rfl, .inl (by rw [hl]; simp)⟩
  | motion hskip hsub hmoved => exact .inr ⟨_, _, _, hsub, rfl, rfl, .inr hmoved⟩
  | idle hskip hrest => exact .inl ⟨rfl, rfl, rfl⟩

namespace Traffic

variable {l : Traffic} {a b : Aggregator}

/-- **Every turn is a step of the traffic**, as long as acknowledgements come in order and the counters have
    room. -/
theorem follows_of_step {input : Input} {now : UInt32} {out : List Output} (hsound : a.Sound)
    (h : l.Matches a) (hroom : l.owed.length + 3 ≤ 4294967295)
    (horder : input.acknowledged? = none ∨ input.acknowledged? = l.owed.head?)
    (hstep : a.step input now = .ok (b, out)) : l.Follows ⟨a, input, now, b, out⟩ := by
  have hcount : ∀ {t}, l.owed.head? = some t → a.pipeline.inFlight.get t ≠ 0 := by
    intro t hhead hzero
    obtain ⟨rest, hrest⟩ := List.head?_eq_some_iff.mp hhead
    rw [h.counts.inFlight_eq_zero_iff, hrest] at hzero
    exact hzero List.mem_cons_self
  cases outcome_of_step hstep with
  | unbound hkey => exact h.quiet (by simp) rfl rfl rfl rfl
  | ignored he hidle hign => exact h.quiet (by simp) rfl rfl rfl rfl
  | deferred he hbusy => exact h.quiet (by simp) rfl rfl rfl rfl
  | started hnew => exact h.quiet (by simp) rfl rfl rfl rfl
  | applied he hidle hupd hsub =>
    exact h.send hroom (by simp) rfl (by simp [hidle]) rfl hsub (filterMap_kind?_append_activity _) rfl
  | moved hmotion hidle hsub =>
    obtain ⟨hack, hne⟩ := Input.acknowledged?_of_isMotion hmotion
    exact h.send hroom hne hack (by simp [hidle]) (Pipeline.inFlight_feel _ _) hsub
      (filterMap_kind?_append_activity _) rfl
  | moving hmotion hbusy =>
    obtain ⟨hack, hne⟩ := Input.acknowledged?_of_isMotion hmotion
    exact h.quiet hne hack rfl (Pipeline.inFlight_feel _ _) rfl
  | stray hnone =>
    rcases horder with hno | hhead
    · cases hno
    · exact absurd hnone (hcount hhead.symm)
  | late hsome hdown =>
    rcases horder with hno | hhead
    · cases hno
    · rw [h.disconnected hdown] at hhead
      cases hhead
  | @delivered t _ c _ hsome hup hdrain =>
    have hhead : l.owed.head? = some t := by
      rcases horder with hno | hhead
      · cases hno
      · exact hhead.symm
    rcases hdrain.says with ⟨hphase, rfl, hflight⟩ | ⟨tables, u, rs, hsub, hphase, rfl, hwhy⟩
    · refine h.rest rfl hhead rfl hphase ?_ hup
      show ((c.pipeline.acknowledge? t).getD c.pipeline).inFlight = _
      unfold Pipeline.acknowledge?
      rw [hflight]
      split
      · exact hflight
      · rfl
    · -- An idle link has nothing to report.
      have hbusy : a.phase = .busy := by
        cases hp : a.phase with
        | busy => rfl
        | disconnected => exact absurd hp hup
        | idle =>
          obtain ⟨hpending, hmotion⟩ := hsound.idle hp
          rcases hwhy with hwaiting | hmoved
          · exact absurd hpending hwaiting
          · exact absurd hmotion hmoved
      exact h.next hroom rfl hhead hbusy hsub (filterMap_kind?_map_report rs) hphase rfl
  | connected hdown hdrain =>
    rcases hdrain.says with ⟨hphase, rfl, hflight⟩ | ⟨tables, u, rs, hsub, hphase, rfl, hwhy⟩
    · -- Without a report the new session is as blank as the old one.
      have hblank := h.disconnected hdown
      have hcounts := h.counts
      rw [hblank] at hcounts ⊢
      have hafter : blank.after ⟨a, .link true, now, b, []⟩ = blank :=
        after_quiet (by simp) rfl rfl (by rw [hphase]; rfl)
      rw [Follows, hafter]
      exact ⟨.quiet, matches_of_up (by simp [hphase]) (hcounts.congr hflight) (by rw [hphase]; rfl)⟩
    · exact h.send (p := (a.meeting now).pipeline) hroom (by simp) rfl (by simp [hdown]) rfl hsub
        (filterMap_kind?_map_report rs) hphase
  | @unmoved up _ hsame =>
    cases up with
    | true => exact h.quiet (by simp) rfl rfl rfl rfl
    | false =>
      have hblank := matches_blank hsound (hsame.mpr rfl)
      exact ⟨.fresh, hblank⟩
  | disconnected hup =>
    have hdown : a.disconnect.phase = .disconnected := by rw [disconnect, if_neg hup]
    exact ⟨.fresh, matches_blank (hsound.step hstep) hdown⟩

end Traffic

/-! ## Histories -/

section History

open Traffic

variable {layout : Layout} {window : UInt32} {turns : List Turn} {a : Aggregator}

/-- The reports on the way are the ones that the link waits for and the companions that nothing has made up
    for, so there is room for them as long as there is room for these. -/
theorem Traffic.Matches.total_le_iff {l : Traffic} (h : l.Matches a) (hlawful : l.Lawful) (places : Nat) :
    a.pipeline.total ≤ places ↔ l.companions + l.busy.toNat ≤ places + l.spare := by
  have htotal := h.counts.total_eq hlawful.kinds
  have hbalance := hlawful.balance
  omega

/-- **The counters stay exact as long as the channel is not overrun**, and it is overrun if the companions
    outnumber what makes up for them. -/
theorem History.bounded_iff (h : History layout window turns a) (hfifo : Along InOrder turns) :
    (Along (fun _ turn => turn.after.pipeline.total ≤ Limits.reportPlaces) turns ↔
        Along (fun pre turn => (traffic (pre ++ [turn])).companions + (traffic (pre ++ [turn])).busy.toNat
          ≤ Limits.reportPlaces + (traffic (pre ++ [turn])).spare) turns)
      ∧ (Along (fun _ turn => turn.after.pipeline.total ≤ Limits.reportPlaces) turns →
        (traffic turns).Matches a ∧ (traffic turns).Lawful
          ∧ (traffic turns).owed.length ≤ Limits.reportPlaces) := by
  induction h with
  | new =>
    refine ⟨iff_of_true along_nil along_nil, fun _ => ⟨?_, lawful_blank, Nat.zero_le _⟩⟩
    exact matches_blank (sound_create layout window) rfl
  | @turn turns a b input now out h hstep ih =>
    obtain ⟨hbefore, hturn⟩ := along_append_singleton.mp hfifo
    obtain ⟨hiff, hkept⟩ := ih hbefore
    rw [along_append_singleton, along_append_singleton]
    -- The state after the turn is as exact as the one before it.
    have hnext : Along (fun _ turn => turn.after.pipeline.total ≤ Limits.reportPlaces) turns →
        (traffic (turns ++ [⟨a, input, now, b, out⟩])).Matches b
          ∧ (traffic (turns ++ [⟨a, input, now, b, out⟩])).Lawful := by
      intro hbound
      obtain ⟨hmatch, hlawful, hlength⟩ := hkept hbound
      rw [Limits.reportPlaces] at hlength
      obtain ⟨hgoes, hafter⟩ := follows_of_step h.sound hmatch (by omega) hturn hstep
      rw [traffic_append_singleton]
      exact ⟨hafter, hlawful.step hgoes⟩
    constructor
    · constructor
      · rintro ⟨hbound, hlast⟩
        obtain ⟨hmatch, hlawful⟩ := hnext hbound
        exact ⟨hiff.mp hbound, (hmatch.total_le_iff hlawful _).mp hlast⟩
      · rintro ⟨hpaid, hlast⟩
        obtain ⟨hmatch, hlawful⟩ := hnext (hiff.mpr hpaid)
        exact ⟨hiff.mpr hpaid, (hmatch.total_le_iff hlawful _).mpr hlast⟩
    · rintro ⟨hbound, hlast⟩
      obtain ⟨hmatch, hlawful⟩ := hnext hbound
      rw [← hmatch.counts.total_eq hlawful.kinds]
      exact ⟨hmatch, hlawful, hlast⟩

/-- A session that has heard too few acknowledgements to fill a counter has exact counters. -/
theorem History.matches_of_heard (h : History layout window turns a) (hfifo : Along InOrder turns)
    (hheard : (traffic turns).heard < 4294967295) : (traffic turns).Matches a ∧ (traffic turns).Lawful := by
  induction h with
  | new => exact ⟨matches_blank (sound_create layout window) rfl, lawful_blank⟩
  | @turn turns a b input now out h hstep ih =>
    obtain ⟨hbefore, hturn⟩ := along_append_singleton.mp hfifo
    rw [traffic_append_singleton] at hheard ⊢
    by_cases hclose : input = .link false
    · -- A new session starts from nothing, whatever the old one was like.
      have hblank : (traffic turns).after ⟨a, input, now, b, out⟩ = blank := if_pos hclose
      subst hclose
      rw [hblank]
      refine ⟨matches_blank (h.sound.step hstep) ?_, lawful_blank⟩
      cases hstep
      unfold disconnect
      split
      · assumption
      · rfl
    · have hless : (traffic turns).heard ≤ ((traffic turns).after ⟨a, input, now, b, out⟩).heard := by
        rw [after, if_neg hclose]
        exact Nat.le_add_right _ _
      obtain ⟨hmatch, hlawful⟩ := ih hbefore (Nat.lt_of_le_of_lt hless hheard)
      have hsquare := hlawful.length_mul_length_le
      have hroom : (traffic turns).owed.length + 3 ≤ 4294967295 := by
        by_contra hfull
        have hmul := Nat.mul_le_mul_right (traffic turns).owed.length
          (show 4294967293 ≤ (traffic turns).owed.length by omega)
        omega
      obtain ⟨hgoes, hafter⟩ := follows_of_step h.sound hmatch hroom hturn hstep
      exact ⟨hafter, hlawful.step hgoes⟩

/-- **`n` reports on the way take about `n² / 2` acknowledgements.** -/
theorem History.total_mul_total_le (h : History layout window turns a) (hfifo : Along InOrder turns)
    (hheard : (traffic turns).heard < 4294967295) :
    a.pipeline.total * a.pipeline.total ≤ 3 * a.pipeline.total + 2 * ((traffic turns).heard + 1) := by
  obtain ⟨hmatch, hlawful⟩ := h.matches_of_heard hfifo hheard
  rw [hmatch.counts.total_eq hlawful.kinds]
  exact hlawful.length_mul_length_le

/-- **When the report channel has room for all reports on the way**, if they are acknowledged in the order in
    which they were sent:
    - it has so in every state of a history exactly if at no turn the companions of the session, and the
      report that the link waits for, outnumber the places of the channel and the acknowledgements that
      found the link idle;
    - it has so in every session of up to 117 acknowledgements. -/
theorem History.inFlight_bounded_iff (h : History layout window turns a) (hfifo : Along InOrder turns) :
    (Along (fun _ turn => turn.after.pipeline.total ≤ Limits.reportPlaces) turns ↔
        Along (fun pre turn => (traffic (pre ++ [turn])).companions + (traffic (pre ++ [turn])).busy.toNat
          ≤ Limits.reportPlaces + (traffic (pre ++ [turn])).spare) turns)
      ∧ ((traffic turns).heard < 118 → a.pipeline.total ≤ Limits.reportPlaces) := by
  refine ⟨(h.bounded_iff hfifo).1, ?_⟩
  intro hheard
  have hsquare := h.total_mul_total_le hfifo (by omega)
  rw [Limits.reportPlaces]
  by_contra hmore
  have hmul := Nat.mul_le_mul_right a.pipeline.total (show 17 ≤ a.pipeline.total by omega)
  omega

/-- A key while the pointer moves: two companions go out, and one acknowledgement finds the link idle. -/
theorem inFlight_bounded_iff_key_motion :
    ∃ turns a, History Layout.standard 500 turns a
      ∧ turns.map Turn.stimulus = [(.link true, 0), (.key 4 true, 5), (.delivered .keyboard, 7),
        (.motion 1 0, 8), (.delivered .mouse, 9), (.delivered .mouse, 10)]
      ∧ (traffic turns).companions = 2 ∧ (traffic turns).spare = 1 ∧ a.pipeline.total = 1
      ∧ Along (fun _ turn => turn.after.pipeline.total ≤ Limits.reportPlaces) turns
      ∧ a.pipeline.total ≤ Limits.reportPlaces := by
  obtain ⟨turns, a, h, hinputs, hrun⟩ := exists_history Layout.standard 500
    [(.link true, 0), (.key 4 true, 5), (.delivered .keyboard, 7), (.motion 1 0, 8),
      (.delivered .mouse, 9), (.delivered .mouse, 10)]
    (fun turns a => decide (Along InOrder turns) && decide ((traffic turns).companions = 2
      ∧ (traffic turns).spare = 1 ∧ (traffic turns).heard < 118 ∧ a.pipeline.total = 1)
      && decide (Along (fun pre turn => (traffic (pre ++ [turn])).companions
        + (traffic (pre ++ [turn])).busy.toNat
          ≤ Limits.reportPlaces + (traffic (pre ++ [turn])).spare) turns)) (by decide +kernel)
  simp only [Bool.and_eq_true, decide_eq_true_eq] at hrun
  obtain ⟨⟨hfifo, hcompanions, hspare, hheard, htotal⟩, hpaid⟩ := hrun
  obtain ⟨hiff, hshort⟩ := h.inFlight_bounded_iff hfifo
  exact ⟨turns, a, h, hinputs, hcompanions, hspare, htotal, hiff.mpr hpaid, hshort hheard⟩

end History

/-! ## A run that overruns the channel -/

/-- With `k` mouse reports on the way and nothing else, a key brings a companion. Motion then keeps the link
    busy until its report is the oldest one, and its acknowledgement leaves one mouse report more. -/
def crowdingLap (k : Nat) (pressed : Bool) : List Input :=
  .key 4 pressed :: (List.replicate k [.motion 1 0, .delivered .mouse]).flatten
    ++ [.delivered .keyboard]

/-- A key that is pressed and released over and over, while the pointer moves. -/
def crowding : List (Input × UInt32) :=
  (.link true :: .key 4 true :: .delivered .keyboard
      :: (List.range 13).flatMap (fun i => crowdingLap (i + 2) (i % 2 = 1))
    ++ [.key 4 true] : List Input).map fun input => (input, 0)

/-- **Acknowledgements in order, and more reports on the way than the channel has room for.** -/
theorem inFlight_crowding :
    ∃ turns a, History Layout.standard 500 turns a ∧ turns.map Turn.stimulus = crowding
      ∧ Along InOrder turns ∧ (traffic turns).heard = 118 ∧ a.pipeline.total = 17 := by
  obtain ⟨turns, a, h, hinputs, hrun⟩ := exists_history Layout.standard 500 crowding
    (fun turns a => decide (Along InOrder turns)
      && decide ((traffic turns).heard = 118 ∧ a.pipeline.total = 17)) (by decide +kernel)
  simp only [Bool.and_eq_true, decide_eq_true_eq] at hrun
  obtain ⟨hfifo, hheard, htotal⟩ := hrun
  exact ⟨turns, a, h, hinputs, hfifo, hheard, htotal⟩

end Peripheral
