import Peripheral.Proofs.Pacing
import Peripheral.Proofs.Running

/-!
# `Peripheral.Proofs.Awaited` — what the link waits for is on its way

A busy link goes on when an acknowledgement comes. The acknowledgement of a report begins as the report
itself in the report channel, passes through the hands of the writer, and ends as a message in the input
channel, so each report that the aggregator counts has something on the way that will become its
acknowledgement. The aggregator may count fewer reports than are on the way, since a host that goes away
makes it forget them; it never counts more, unless there was no room for a report.

## Contents
- `Aggregator.inFlight_le_of_step`: what one input does to the counters.
- `World.tokens`, `tokens_eq`: what will become an acknowledgement.
- `World.Covered`, `Covered.go`: a token for each report that is counted, move by move.
- `Course.inFlight_le_tokens`: a busy link is never left waiting.
-/

namespace Peripheral

/-! ## Counters -/

namespace Pipeline

variable {p q : Pipeline} {tables : PerTarget HoldTable} {t : Target} {rs : List Report}

/-- One more report is counted, or the counter is at its greatest value. -/
theorem inFlight_launch_le (p : Pipeline) (t u : Target) :
    ((p.launch t).inFlight.get u).toNat ≤ (p.inFlight.get u).toNat + [t].count u := by
  rw [launch]
  by_cases hut : u = t
  · subst hut
    rw [PerTarget.get_set_self, Saturating.toNat_raise, List.count_singleton_self]
    omega
  · rw [PerTarget.get_set_ne _ _ hut]
    exact Nat.le_add_right _ _

/-- **No more reports are counted than are submitted.** -/
theorem Submits.inFlight_le (h : Submits tables p t q rs) (u : Target) :
    (q.inFlight.get u).toNat ≤ (p.inFlight.get u).toNat + (rs.map Report.target).count u := by
  induction h with
  | @mouse p r hr hmore => exact p.inFlight_launch_le .mouse u
  | @mousePair p r s hr hs hnone =>
    cases u with
    | mouse => exact Nat.le_add_left _ _
    | keyboard | media => exact Nat.le_add_right _ _
  | @keyboard p k hk hmore => exact p.inFlight_launch_le .keyboard u
  | @keyboardFirst p q k rs hk hnone hmouse ih =>
    have hfirst := p.inFlight_launch_le .keyboard u
    rw [List.map_cons, ← List.singleton_append, List.count_append]
    simp only [Report.target]
    omega

/-- An acknowledgement takes one report off its counter, if one is there. -/
theorem inFlight_acknowledge (p : Pipeline) (t u : Target) :
    (((p.acknowledge? t).getD p).inFlight.get u).toNat = (p.inFlight.get u).toNat - [t].count u := by
  unfold acknowledge?
  by_cases hut : u = t
  · subst hut
    rw [List.count_singleton_self]
    split
    · rename_i hzero
      rw [Option.getD_none, hzero]
      rfl
    · rename_i hsome
      rw [Option.getD_some, PerTarget.get_set_self]
      rw [← UInt32.toNat_inj] at hsome
      refine UInt32.toNat_sub_of_le _ _ ?_
      rw [UInt32.le_iff_toNat_le]
      exact Nat.pos_of_ne_zero hsome
  · have hnone : [t].count u = 0 := List.count_eq_zero.mpr (by simpa using hut)
    rw [hnone, Nat.sub_zero]
    split
    · rfl
    · rw [Option.getD_some, PerTarget.get_set_ne _ _ hut]

end Pipeline

namespace Aggregator

variable {a b : Aggregator}

/-- Going on counts no more reports than it says. -/
theorem DrainsTo.inFlight_le {waiting : List Pending} {out : List Output} (h : a.DrainsTo waiting b out)
    (u : Target) :
    (b.pipeline.inFlight.get u).toNat
      ≤ (a.pipeline.inFlight.get u).toNat + (out.filterMap Output.kind?).count u := by
  rcases h.says with ⟨-, rfl, hflight⟩ | ⟨tables, t, rs, hsub, -, rfl, -⟩
  · rw [hflight]
    exact Nat.le_add_right _ _
  · rw [filterMap_kind?_map_report]
    exact hsub.inFlight_le u

/-- **What one input does to the counters**: an acknowledgement takes its report off, and each report that is
    said is counted once at most. -/
theorem inFlight_le_of_step {input : Input} {now : UInt32} {out : List Output}
    (h : a.step input now = .ok (b, out)) (u : Target) :
    (b.pipeline.inFlight.get u).toNat
      ≤ (a.pipeline.inFlight.get u).toNat - input.acknowledged?.toList.count u
        + (out.filterMap Output.kind?).count u := by
  cases outcome_of_step h with
  | applied he hidle hupd hsub =>
    rw [filterMap_kind?_append_activity]
    exact hsub.inFlight_le u
  | moved hmotion hidle hsub =>
    have hle := hsub.inFlight_le u
    rw [Pipeline.inFlight_feel] at hle
    rw [filterMap_kind?_append_activity, (Input.acknowledged?_of_isMotion hmotion).1]
    exact hle
  | moving hmotion hbusy =>
    rw [(Input.acknowledged?_of_isMotion hmotion).1, Pipeline.inFlight_feel]
    exact Nat.le_add_right _ _
  | @stray t _ hnone =>
    -- There is nothing to take off.
    by_cases hut : u = t
    · rw [hut, hnone]
      exact Nat.zero_le _
    · simp [Input.acknowledged?, Ne.symm hut]
  | @late t _ hsome hdown => exact (a.pipeline.inFlight_acknowledge t u).le
  | @delivered t _ c _ hsome hup hdrain =>
    have hle := hdrain.inFlight_le u
    rw [c.pipeline.inFlight_acknowledge t u]
    show _ ≤ _ - [t].count u + _
    by_cases hut : u = t
    · subst hut
      rw [Ne, ← UInt32.toNat_inj] at hsome
      change _ ≠ 0 at hsome
      rw [List.count_singleton_self]
      omega
    · have hcount : [t].count u = 0 := List.count_eq_zero.mpr (by simpa using hut)
      rw [hcount]
      exact hle
  | connected hdown hdrain => exact hdrain.inFlight_le u
  | disconnected hup =>
    rw [disconnect, if_neg hup, Pipeline.forgetInFlight, PerTarget.get_same]
    exact Nat.zero_le _
  | _ => exact Nat.le_add_right _ _

end Aggregator

end Peripheral

namespace Peripheral.Firmware

/-! ## Tokens -/

/-- There was no room for a report. -/
def Entry.isDrop : Entry → Bool
  | .notice (.reportDropped _) => true
  | _ => false

namespace World

variable {w v : World} {move : Move} {seen : List Entry}

/-- **What will become an acknowledgement** of a report of a kind: the reports that wait for the writer, the
    one that the writer has in hands until its acknowledgement is sent, and the acknowledgements that
    wait for the aggregator. -/
def tokens (w : World) (t : Target) : Nat :=
  w.reports.queued.countP (fun r => r.target = t) + w.writer.held.count t
    + w.inputs.queued.count (.delivered t)

/-- An input is the acknowledgement of a report of a kind, or it acknowledges none of that kind. -/
theorem count_acknowledged (t : Target) (inputs : List Input) :
    (inputs.filterMap Input.acknowledged?).count t = inputs.count (.delivered t) := by
  induction inputs with
  | nil => rfl
  | cons input rest ih =>
    cases input with
    | delivered u =>
      have hsame : (Input.delivered u == .delivered t) = (u == t) := by simp [beq_eq_decide]
      rw [List.filterMap_cons_some (f := Input.acknowledged?) (b := u) rfl, List.count_cons,
        List.count_cons, ih, hsame]
    | _ => rw [List.filterMap_cons_none rfl, ih, List.count_cons_of_ne (by simp)]

theorem count_targets (t : Target) (rs : List Report) :
    (rs.map Report.target).count t = rs.countP fun r => r.target = t := by
  rw [List.count, List.countP_map]
  exact List.countP_congr fun r _ => by simp

/-- The tokens are the reports on the way. -/
theorem tokens_eq (w : World) (t : Target) : w.tokens t = w.line.count t := by
  rw [tokens, line, List.count_append, List.count_append, acknowledgements, count_acknowledged,
    count_targets]
  omega

/-- Where none is dropped, every report that is passed on waits for the writer. -/
theorem targets_passAll (w : World) (out : List Output) (h : ∀ e ∈ (w.passAll out).2, e.isDrop = false) :
    (w.passAll out).1.reports.queued.map Report.target
      = w.reports.queued.map Report.target ++ out.filterMap Output.kind? := by
  induction out generalizing w with
  | nil => exact (List.append_nil _).symm
  | cons o rest ih =>
    have hafter := ih (w.pass o).1 fun e he => h e (List.mem_append_right _ he)
    change ((w.pass o).1.passAll rest).1.reports.queued.map Report.target = _
    rw [hafter]
    cases o with
    | activity => rfl
    | report r =>
      rw [List.filterMap_cons_some (f := Output.kind?) (b := r.target) rfl]
      unfold pass
      dsimp only
      split
      · rename_i reports hsend
        rw [Channel.queued_send? hsend, List.map_append, List.append_assoc]
        rfl
      · rename_i hfull
        have hdropped : Entry.notice (.reportDropped r.target) ∈ (w.pass (.report r)).2 := by
          rw [pass, hfull]
          exact List.mem_singleton_self _
        cases h _ (List.mem_append_left _ hdropped)

/-- **There is a token for each report that is counted.** -/
def Covered (w : World) : Prop := ∀ t, (w.aggregator.pipeline.inFlight.get t).toNat ≤ w.tokens t

theorem covered_initial : initial.Covered := by
  intro t
  show ((PerTarget.same (0 : UInt32)).get t).toNat ≤ _
  rw [PerTarget.get_same]
  exact Nat.zero_le _

/-- **Every move that drops no report keeps the tokens.** -/
theorem Covered.go (h : w.Covered) (hhealthy : w.Healthy) (hgo : w.go? move = some (v, seen))
    (hnone : ∀ e ∈ seen, e.isDrop = false) : v.Covered := by
  intro t
  by_cases hmove : move = .step .aggregator
  · subst hmove
    obtain ⟨input, a, out, inputs, hnext, hstep, hqueued, -, hpass⟩ := hhealthy.handles hgo
    have hbefore := h t
    have hcounts := Aggregator.inFlight_le_of_step hstep t
    -- The token of the report that is acknowledged is taken out of the input channel.
    have htaken : w.inputs.queued.count (.delivered t)
        = input.acknowledged?.toList.count t + inputs.queued.count (.delivered t) := by
      rw [← count_acknowledged, filterMap_inputs rfl hnext hqueued, List.count_append,
        count_acknowledged]
    obtain ⟨reports, power, kept, hframe, -, -⟩ :=
      passAll_eq { w with inputs := inputs, power := w.power.told input, aggregator := a } out
    have htargets :=
      targets_passAll { w with inputs := inputs, power := w.power.told input, aggregator := a } out
        (by rw [hpass]; exact hnone)
    rw [hpass] at hframe htargets
    subst hframe
    have hreports := congrArg (List.count t) htargets
    rw [List.count_append, count_targets, count_targets] at hreports
    simp only [tokens] at hbefore hreports ⊢
    omega
  · rw [(goes_of_go hgo hmove).aggregator_eq, tokens_eq, (line_of_go_of_ne hgo hmove).1, ← tokens_eq]
    exact h t

/-- **Nothing else keeps a busy link waiting**: a device comes to rest with one only while an endpoint does
    not take the report that the writer has in hands. -/
theorem Covered.blocked_of_atRest (h : w.Covered) (hhealthy : w.Healthy) (hrest : w.atRest = true)
    (hbusy : w.aggregator.phase = .busy) :
    ∃ r, w.writer = .writing r ∧ w.mode (endpointOf r) = .blocked := by
  have hinputs := hhealthy.inputs_of_atRest hrest
  cases hhealthy.waits hrest .writer with
  | report hwriter hnone =>
    -- There is no token, so nothing could be waited for.
    obtain ⟨t, ht⟩ := hhealthy.sound.busy hbusy
    have hle := h t
    rw [tokens, hinputs, Channel.queued_of_receive?_eq_none hnone, hwriter] at hle
    exact absurd (UInt32.toNat_inj.mp (Nat.le_zero.mp hle)) ht
  | @endpoint r hwriter hmode => exact ⟨r, hwriter, hmode⟩
  | acknowledgement _ hfull => exact absurd hfull (hhealthy.send?_of_atRest hrest _)

end World

/-- **A busy link is never left waiting.** As long as no report was without room, whatever the tasks did and
    however they took turns:
    - the aggregator counts no more reports of a kind than there are tokens of it: reports that wait for
      the writer, the one that the writer has in hands, and acknowledgements that wait;
    - a busy link waits for a report that has such a token;
    - a device comes to rest with a busy link only while an endpoint holds the writer up. -/
theorem Course.inFlight_le_tokens {legs : List Leg} {w : World} (h : Course legs w)
    (hnone : ∀ leg ∈ legs, ∀ e ∈ leg.seen, e.isDrop = false) :
    (∀ t, (w.aggregator.pipeline.inFlight.get t).toNat ≤ w.tokens t)
      ∧ (w.aggregator.phase = .busy →
        ∃ t, w.aggregator.pipeline.inFlight.get t ≠ 0 ∧ 0 < w.tokens t)
      ∧ (w.aggregator.phase = .busy → w.atRest = true →
        ∃ r, w.writer = .writing r ∧ w.mode (endpointOf r) = .blocked) := by
  have hhealthy := h.healthy
  have hcovered : w.Covered := by
    induction h with
    | powerOn => exact World.covered_initial
    | @leg legs w v move seen h hgo ih =>
      have hbefore := ih (fun leg hleg => hnone leg (List.mem_append_left _ hleg)) h.healthy
      exact hbefore.go h.healthy hgo (hnone _ (List.mem_append_right _ (List.mem_singleton_self _)))
  refine ⟨hcovered, ?_, fun hbusy hrest => hcovered.blocked_of_atRest hhealthy hrest hbusy⟩
  intro hbusy
  obtain ⟨t, ht⟩ := hhealthy.sound.busy hbusy
  refine ⟨t, ht, Nat.lt_of_lt_of_le ?_ (hcovered t)⟩
  exact Nat.pos_of_ne_zero fun hzero => ht (UInt32.toNat_inj.mp hzero)

/-- A key is down, its report is held up at the keyboard's endpoint, and every task has to wait. -/
theorem inFlight_le_tokens_blocked :
    ∃ legs w, Course legs w ∧ (∀ leg ∈ legs, ∀ e ∈ leg.seen, e.isDrop = false)
      ∧ w.aggregator.phase = .busy ∧ w.atRest = true
      ∧ w.aggregator.pipeline.inFlight = ⟨1, 2, 0⟩
      ∧ (∀ t, (w.aggregator.pipeline.inFlight.get t).toNat ≤ w.tokens t)
      ∧ ∃ r, w.writer = .writing r ∧ w.mode (endpointOf r) = .blocked := by
  obtain ⟨legs, leg, w, h, -, hleg⟩ := exists_course
    [.step .aggregator, .step .usb, .step .writer, .step (.button .first), .step (.button .second),
      .step (.button .third), .step (.button .fourth), .outside (.configured true), .step .linkWatch,
      .step .linkWatch, .step .aggregator, .step .power, .outside (.endpoint .keyboard .blocked),
      .outside (.level 24 true), .step (.button .third), .outside (.elapse 20), .step (.button .third),
      .step (.button .third), .step .aggregator, .step .power, .step .writer]
    (fun legs leg => decide ((∀ l ∈ legs ++ [leg], ∀ e ∈ l.seen, e.isDrop = false)
      ∧ leg.after.aggregator.phase = .busy ∧ leg.after.atRest = true
      ∧ leg.after.aggregator.pipeline.inFlight = ⟨1, 2, 0⟩)) (by decide +kernel)
  rw [h.after_eq] at hleg
  obtain ⟨hnone, hbusy, hrest, hflight⟩ := of_decide_eq_true hleg
  obtain ⟨hle, -, hblocked⟩ := h.inFlight_le_tokens hnone
  exact ⟨_, w, h, hnone, hbusy, hrest, hflight, hle, hblocked hbusy hrest⟩

end Peripheral.Firmware
