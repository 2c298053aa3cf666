import Peripheral.Proofs.ArrivalOrder
import Peripheral.Proofs.Awaited
import Peripheral.Proofs.FaultFree
import Peripheral.Proofs.Handshake

/-!
# `Peripheral.Proofs.Settling` — acknowledgements alone bring the link to rest

An acknowledgement takes one report off and may bring two others on the way, so the reports on the way do not
become fewer each time. What becomes less is the debt: the reports on the way, three for each update that
waits, and two for motion that waits. A link that hears nothing but acknowledgements runs out of debt, and then
it is idle and has applied all that waited.

## Contents
- `Motion.fare`, `Aggregator.debt`: what acknowledgements still have to pay for.
- `DrainsTo.pays`, `DrainsTo.applyAll_eq`: going on brings no more reports than it takes from what waits.
- `debt_lt_of_accepts`: one acknowledgement; `Path.settles`: any number of them.
- `History.comes_to_rest`: from any state in which a host listens.
-/

namespace Peripheral

/-! ## Debt -/

/-- The reports that motion can bring: none if there is no motion, and two otherwise. -/
def Motion.fare (m : Motion) : Nat := if m = .zero then 0 else 2

/-- **Debt.** The reports on the way, and those that what waits can still bring. -/
def Aggregator.debt (a : Aggregator) : Nat :=
  a.pipeline.total + 3 * a.backlog.size + a.pipeline.motion.fare

@[simp] theorem Motion.fare_zero : Motion.zero.fare = 0 := rfl

theorem Motion.fare_of_ne {m : Motion} (h : m ≠ .zero) : m.fare = 2 := if_neg h

theorem Motion.fare_le (m : Motion) : m.fare ≤ 2 := by
  unfold Motion.fare
  split <;> decide

/-- A submission leaves the motion, or a mouse report carries it away. -/
theorem Pipeline.Submits.fare_le {tables : PerTarget HoldTable} {p q : Pipeline} {t : Target}
    {rs : List Report} (h : Submits tables p t q rs) : q.motion.fare ≤ p.motion.fare := by
  induction h with
  | mouse | mousePair => exact Nat.zero_le _
  | keyboard => exact Nat.le_refl _
  | keyboardFirst hk hnone hmouse ih => exact ih

/-- A submission for the mouse leaves no motion. -/
theorem Pipeline.Submits.motion_eq_zero {tables : PerTarget HoldTable} {p q : Pipeline}
    {rs : List Report} (h : Submits tables p .mouse q rs) : q.motion = .zero := by
  cases h <;> rfl

/-- With a report on the way no more than two are submitted together. -/
theorem Pipeline.Submits.length_le_two {tables : PerTarget HoldTable} {p q : Pipeline} {t : Target}
    {rs : List Report} (h : Submits tables p t q rs)
    (hflight : p.inFlight.keyboard ≠ 0 ∨ p.inFlight.mouse ≠ 0) : rs.length ≤ 2 := by
  have hle := h.length_le
  have hkeyboard := Bool.toNat_le (decide (p.inFlight.keyboard = 0))
  have hmouse := Bool.toNat_le (decide (p.inFlight.mouse = 0))
  rcases hflight with hsome | hsome
  · rw [decide_eq_false hsome, Bool.toNat_false] at hle
    omega
  · rw [decide_eq_false hsome, Bool.toNat_false] at hle
    omega

/-- Keyboard and mouse are two of the kinds. -/
theorem count_add_count_le (l : List Target) : l.count .keyboard + l.count .mouse ≤ l.length := by
  induction l with
  | nil => exact Nat.le_refl _
  | cons t rest ih => cases t <;> simp <;> omega

namespace Aggregator

variable {a b : Aggregator}
variable {input : Input} {now : UInt32} {out : List Output} {l : List Pending}

/-! ## Going on -/

/-- **Going on pays for what it says** with what it takes from the waiting, as long as a report is on the
    way. -/
theorem DrainsTo.pays (h : a.DrainsTo l b out)
    (hflight : a.pipeline.inFlight.keyboard ≠ 0 ∨ a.pipeline.inFlight.mouse ≠ 0) :
    out.length + 3 * b.backlog.size + b.pipeline.motion.fare
      ≤ 3 * l.length + a.pipeline.motion.fare := by
  cases h with
  | @update skipped rest e table p rs n hl hskip hupd hsub =>
    have hreports := hsub.length_le_two hflight
    have hfare := hsub.fare_le
    show (rs.map Output.report).length + 3 * rest.length + p.motion.fare ≤ _
    rw [hl, List.length_map, List.length_append, List.length_cons]
    omega
  | @motion p rs n hskip hsub hmoved =>
    have hreports := hsub.length_le_two hflight
    show (rs.map Output.report).length + 3 * 0 + p.motion.fare ≤ _
    rw [List.length_map, hsub.motion_eq_zero, Motion.fare_zero, Motion.fare_of_ne hmoved]
    omega
  | idle hskip hrest =>
    show 0 + 3 * 0 + a.pipeline.motion.fare ≤ _
    omega

/-- Going on does not change what the tables come to once all that waits has been applied. -/
theorem DrainsTo.applyAll_eq (h : a.DrainsTo l b out) :
    applyAll a.tables l = applyAll b.tables b.backlog.pending := by
  cases h with
  | @update skipped rest e table p rs n hl hskip hupd hsub =>
    rw [hl, applyAll_append (applyAll_of_ignores hskip), applyAll_cons hupd]
  | motion hskip hsub | idle hskip hrest => exact applyAll_of_ignores hskip

/-! ## Acknowledgements -/

/-- What an acknowledgement does while a host listens. -/
theorem exists_drainsTo_of_accepts (hup : a.phase ≠ .disconnected)
    (hstep : a.step input now = .ok (b, out))
    (haccepts : Turn.accepts ⟨a, input, now, b, out⟩ = true) :
    ∃ t c, input = .delivered t ∧ a.pipeline.inFlight.get t ≠ 0
      ∧ a.DrainsTo a.backlog.pending c out
      ∧ b = { c with pipeline := (c.pipeline.acknowledge? t).getD c.pipeline } := by
  cases outcome_of_step hstep with
  | delivered hsome hup hdrain => exact ⟨_, _, rfl, hsome, hdrain, rfl⟩
  | stray hnone => simp [Turn.accepts, Input.acknowledged?, hnone] at haccepts
  | late hsome hdown => exact absurd hdown hup
  | moved hmotion | moving hmotion =>
    simp [Turn.accepts, (Input.acknowledged?_of_isMotion hmotion).1] at haccepts
  | _ => cases haccepts

/-- An acknowledgement takes one report off, and no more are put on the way than are said. -/
theorem total_lt_of_delivered {t : Target} (ht : t ≠ .media) (hsome : a.pipeline.inFlight.get t ≠ 0)
    (hstep : a.step (.delivered t) now = .ok (b, out)) :
    b.pipeline.total < a.pipeline.total + out.length := by
  have hkeyboard := inFlight_le_of_step hstep .keyboard
  have hmouse := inFlight_le_of_step hstep .mouse
  have hkinds := count_add_count_le (out.filterMap Output.kind?)
  have hsaid := List.length_filterMap_le Output.kind? out
  have hone : 0 < (a.pipeline.inFlight.get t).toNat :=
    Nat.pos_of_ne_zero fun hzero => hsome (UInt32.toNat_inj.mp hzero)
  unfold Pipeline.total
  cases t with
  | keyboard | mouse =>
    simp only [Input.acknowledged?, Option.toList_some, List.count_singleton_self, PerTarget.get,
      List.count_singleton, beq_iff_eq, reduceCtorEq, if_false] at hkeyboard hmouse hone
    omega
  | media => exact absurd rfl ht

/-- **An acknowledgement lowers the debt.** -/
theorem debt_lt_of_accepts (hsound : a.Sound) (hup : a.phase ≠ .disconnected)
    (hstep : a.step input now = .ok (b, out))
    (haccepts : Turn.accepts ⟨a, input, now, b, out⟩ = true) : b.debt < a.debt := by
  obtain ⟨t, c, rfl, hsome, hdrain, rfl⟩ := exists_drainsTo_of_accepts hup hstep haccepts
  have ht : t ≠ .media := by
    rintro rfl
    exact hsome hsound.media
  have hflight : a.pipeline.inFlight.keyboard ≠ 0 ∨ a.pipeline.inFlight.mouse ≠ 0 := by
    cases t with
    | keyboard => exact .inl hsome
    | mouse => exact .inr hsome
    | media => exact absurd rfl ht
  have htotal := total_lt_of_delivered ht hsome hstep
  have hpays := hdrain.pays hflight
  unfold debt
  dsimp only at htotal ⊢
  rw [Pipeline.motion_acknowledge, show a.backlog.size = a.backlog.pending.length from rfl]
  omega

end Aggregator

variable {layout : Layout} {window : UInt32} {turns acks : List Turn} {a b : Aggregator}

open Aggregator

/-- **Acknowledgements settle what waits**: each of them takes something off the debt, and none of them
    changes what the tables come to once all that waits has been applied. -/
theorem Path.settles (h : Path a acks b) (hsound : a.Sound) (hup : a.phase ≠ .disconnected)
    (haccepts : ∀ t ∈ acks, t.accepts = true) :
    acks.length + b.debt ≤ a.debt ∧ b.phase ≠ .disconnected
      ∧ applyAll a.tables a.backlog.pending = applyAll b.tables b.backlog.pending := by
  induction h with
  | nil => exact ⟨by simp, hup, rfl⟩
  | cons hstep hrest ih =>
    obtain ⟨hfirst, hlater⟩ := List.forall_mem_cons.mp haccepts
    have hless := debt_lt_of_accepts hsound hup hstep hfirst
    obtain ⟨t, c, rfl, -, hdrain, rfl⟩ := exists_drainsTo_of_accepts hup hstep hfirst
    obtain ⟨hdebt, hstays, htables⟩ := ih (hsound.step hstep) hdrain.ne_disconnected hlater
    refine ⟨?_, hstays, hdrain.applyAll_eq.trans htables⟩
    rw [List.length_cons]
    omega

/-- If no acknowledgement can come any more, no report is on the way. -/
theorem Aggregator.Sound.inFlight_eq_zero (hsound : b.Sound)
    (hlast : ∀ turn c, Path b [turn] c → turn.accepts = false) (t : Target) :
    b.pipeline.inFlight.get t = 0 := by
  by_contra hsome
  have hready : Input.delivered t = .ready → b.started = false := nofun
  obtain ⟨c, out, hstep⟩ := hsound.exists_step hready 0
  have hnone := hlast _ c (.cons hstep .nil)
  simp [Turn.accepts, Input.acknowledged?, hsome] at hnone

/-- **Acknowledging everything brings the link to rest.** In any state of a history in which a host listens,
    however much is on the way and however much waits, let nothing but acknowledgements come, each of them for
    a report that is on the way then, in whatever order and at whatever times:
    - they are no more than the reports on the way, three for each update that waits, and two;
    - if no further one can come, the link is idle, no update and no motion waits, no report is on the way,
      and the tables are those from before with all the updates applied that waited, in their order. -/
theorem History.comes_to_rest (h : History layout window turns a) (hup : a.phase ≠ .disconnected)
    (hpath : Path a acks b) (haccepts : ∀ t ∈ acks, t.accepts = true) :
    acks.length ≤ a.pipeline.inFlight.keyboard.toNat + a.pipeline.inFlight.mouse.toNat
        + 3 * a.backlog.size + 2
      ∧ ((∀ turn c, Path b [turn] c → turn.accepts = false) →
          b.phase = .idle ∧ b.backlog.pending = [] ∧ b.pipeline.motion = .zero
            ∧ (∀ t, b.pipeline.inFlight.get t = 0)
            ∧ applyAll a.tables a.backlog.pending = .ok b.tables) := by
  obtain ⟨hdebt, hstays, htables⟩ := hpath.settles h.sound hup haccepts
  have hsound := (h.append_path hpath).sound
  refine ⟨?_, ?_⟩
  · have hfare := a.pipeline.motion.fare_le
    change _ ≤ a.pipeline.total + _ + _
    unfold debt at hdebt
    omega
  · intro hlast
    have hflight := hsound.inFlight_eq_zero hlast
    have hidle : b.phase = .idle := by
      cases hphase : b.phase with
      | disconnected => exact absurd hphase hstays
      | idle => rfl
      | busy =>
        -- A busy link would have a report on the way.
        obtain ⟨t, hsome⟩ := hsound.busy hphase
        exact absurd (hflight t) hsome
    obtain ⟨hpending, hmotion⟩ := hsound.idle hidle
    rw [hpending] at htables
    exact ⟨hidle, hpending, hmotion, hflight, htables⟩

/-- A key goes down and up and the pointer moves, and all but the first press has to wait. Five acknowledgements,
    out of order, bring the link to rest, where the key is up again. -/
theorem comes_to_rest_press_release :
    ∃ turns a acks b, History Layout.standard 500 turns a
      ∧ turns.map Turn.stimulus
        = [(.link true, 0), (.key 4 true, 1), (.key 4 false, 2), (.motion 3 4, 3)]
      ∧ Path a acks b
      ∧ acks.map Turn.input = [.delivered .keyboard, .delivered .mouse, .delivered .keyboard,
          .delivered .mouse, .delivered .mouse]
      ∧ acks.length ≤ 1 + 2 + 3 * 1 + 2 ∧ b.phase = .idle
      ∧ applyAll a.tables a.backlog.pending = .ok b.tables := by
  obtain ⟨turns, a, h, hinputs, hstate⟩ := exists_history Layout.standard 500
    [(.link true, 0), (.key 4 true, 1), (.key 4 false, 2), (.motion 3 4, 3)]
    (fun _ a => a.isUp && a.pipeline.inFlight = ⟨1, 2, 0⟩ && a.backlog.size = 1
      && (a.record [(.delivered .keyboard, 4), (.delivered .mouse, 5), (.delivered .keyboard, 6),
          (.delivered .mouse, 7), (.delivered .mouse, 8)]).toOption.any fun r =>
        r.1.all Turn.accepts && r.2.pipeline.inFlight = .same 0) (by decide +kernel)
  simp only [Bool.and_eq_true, decide_eq_true_eq] at hstate
  obtain ⟨⟨⟨hup, hwaiting⟩, hsize⟩, hrec⟩ := hstate
  cases hacks : a.record _ with
  | error fault => rw [hacks] at hrec; cases hrec
  | ok r =>
    obtain ⟨acks, b⟩ := r
    rw [hacks] at hrec
    obtain ⟨haccepts, hnone⟩ := Bool.and_eq_true_iff.mp hrec
    obtain ⟨hpath, hturns⟩ := path_of_record hacks
    obtain ⟨hlength, hrest⟩ := h.comes_to_rest (of_decide_eq_true hup) hpath
      (List.all_eq_true.mp haccepts)
    have hflight : b.pipeline.inFlight = .same 0 := of_decide_eq_true hnone
    have hlast : ∀ turn c, Path b [turn] c → turn.accepts = false := by
      intro turn c hturn
      cases hturn with
      | @cons _ _ _ input _ _ _ hstep _ => cases input <;> simp [Turn.accepts, Input.acknowledged?, hflight]
    obtain ⟨hidle, -, -, -, htables⟩ := hrest hlast
    refine ⟨turns, a, acks, b, h, hinputs, hpath, ?_, ?_, hidle, htables⟩
    · have := congrArg (List.map Prod.fst) hturns
      rwa [List.map_map] at this
    · rwa [hwaiting, hsize] at hlength

end Peripheral
