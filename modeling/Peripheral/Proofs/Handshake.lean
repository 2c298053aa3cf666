import Peripheral.Proofs.HostView
import Peripheral.Proofs.Pacing

/-!
# `Peripheral.Proofs.Handshake` — between two reports lies an acknowledgement

A link that has been told something waits, and while it waits it is told nothing more. Only one thing ends
the wait: news of a report that is on the way. So within a session two turns that say reports always have
such news between them, unless the later one is the news itself, and a session says reports in no more
turns than it has heard such news in, but for one. News of anything else is not heard at all.

## Contents
- `Turn.accepts`, `Turn.sends`, `IsSession`: acknowledgements, reports and sessions.
- `busy_of_sends`, `busy_of_step`: how a link comes to wait, and that it goes on waiting.
- `Path.accepts_between`, `Path.countP_sends_le`: what that means for some turns one after the other.
- `length_sent_le`, `opens_of_sends`, `eq_of_step_delivered`: single turns.
- `History.sends_paced`: the sessions of a history.
-/

namespace Peripheral

open Aggregator

/-! ## Acknowledgements, reports and sessions -/

/-- The input is news of a report that is on the way. -/
def Turn.accepts (t : Turn) : Bool :=
  t.input.acknowledged?.any fun k => t.before.pipeline.inFlight.get k ≠ 0

/-- The turn says a report. -/
def Turn.sends (t : Turn) : Bool := !t.sent.isEmpty

/-- **Sessions.** A host begins to listen in the turn `opening`, and it listens through all of `session`. -/
structure IsSession (opening : Turn) (session : List Turn) : Prop where
  opens : opening.opens = true
  listens : ∀ t ∈ session, t.after.isUp = true

variable {layout : Layout} {window : UInt32} {turns : List Turn} {a b : Aggregator}
variable {input : Input} {now : UInt32} {out : List Output}

/-- In every state of a session, the one that it opens with included, a host listens. -/
theorem IsSession.isUp {opening : Turn} {session : List Turn} (h : IsSession opening session)
    (hstep : opening.before.step opening.input opening.now = .ok (opening.after, opening.said)) :
    ∀ t ∈ opening :: session, t.after.isUp = true := by
  intro t ht
  rcases List.mem_cons.mp ht with rfl | ht
  · obtain ⟨hinput, -⟩ := Bool.and_eq_true_iff.mp h.opens
    rw [isUp_of_step hstep, of_decide_eq_true hinput]
    rfl
  · exact h.listens t ht

/-! ## Waiting -/

/-- Who says a report waits afterwards. -/
theorem busy_of_sends (hstep : a.step input now = .ok (b, out))
    (hsends : Turn.sends ⟨a, input, now, b, out⟩ = true) : b.phase = .busy := by
  cases outcome_of_step hstep with
  | applied | moved => rfl
  | delivered hsome hup hdrain | connected hdown hdrain =>
    rcases hdrain.says with ⟨-, rfl, -⟩ | ⟨_, _, _, -, hphase, -⟩
    · cases hsends
    · exact hphase
  | _ => cases hsends

/-- **Only news of a report that is on the way ends a wait**, as long as the host listens, and who waits says
    no report. -/
theorem busy_of_step (hstep : a.step input now = .ok (b, out)) (hbusy : a.phase = .busy)
    (haccepts : Turn.accepts ⟨a, input, now, b, out⟩ = false) (hup : b.isUp = true) :
    b.phase = .busy ∧ Turn.sends ⟨a, input, now, b, out⟩ = false := by
  cases outcome_of_step hstep with
  | ignored he hidle | applied he hidle | moved hmotion hidle =>
    exact absurd (hbusy.symm.trans hidle) (by decide)
  | late hsome hdown | connected hdown => exact absurd (hbusy.symm.trans hdown) (by decide)
  | delivered hsome => simp [Turn.accepts, Input.acknowledged?, hsome] at haccepts
  | disconnected hbefore =>
    rw [disconnect, if_neg hbefore] at hup
    cases hup
  | _ => exact ⟨hbusy, rfl⟩

/-- **What a turn costs.** A turn that says reports, and a wait that comes to its end, are each paid for by an
    acknowledgement or by the wait that begins. -/
theorem sends_le_accepts (hstep : a.step input now = .ok (b, out)) (hup : b.isUp = true) :
    (Turn.sends ⟨a, input, now, b, out⟩).toNat + (decide (a.phase = .busy)).toNat
      ≤ (Turn.accepts ⟨a, input, now, b, out⟩).toNat + (decide (b.phase = .busy)).toNat := by
  cases haccepts : Turn.accepts ⟨a, input, now, b, out⟩ with
  | true =>
    cases hsends : Turn.sends ⟨a, input, now, b, out⟩ with
    | true =>
      have hafter := busy_of_sends hstep hsends
      have hbefore := Bool.toNat_le (decide (a.phase = .busy))
      simp only [hafter, Bool.toNat_true, decide_true]
      omega
    | false =>
      have hbefore := Bool.toNat_le (decide (a.phase = .busy))
      simp only [Bool.toNat_true, Bool.toNat_false]
      omega
  | false =>
    by_cases hbusy : a.phase = .busy
    · obtain ⟨hafter, hsends⟩ := busy_of_step hstep hbusy haccepts hup
      simp [hbusy, hafter, hsends]
    · cases hsends : Turn.sends ⟨a, input, now, b, out⟩ with
      | true => simp [hbusy, busy_of_sends hstep hsends]
      | false => simp [hbusy]

/-! ## Turns one after the other -/

/-- The wait goes on through turns without an acknowledgement. -/
theorem Path.busy (h : Path a turns b) (hbusy : a.phase = .busy)
    (haccepts : ∀ t ∈ turns, t.accepts = false) (hup : ∀ t ∈ turns, t.after.isUp = true) :
    b.phase = .busy := by
  induction h with
  | nil => exact hbusy
  | cons hstep hrest ih =>
    obtain ⟨hfirst, hlater⟩ := List.forall_mem_cons.mp haccepts
    obtain ⟨hup, hups⟩ := List.forall_mem_cons.mp hup
    exact ih (busy_of_step hstep hbusy hfirst hup).1 hlater hups

/-- **Between two turns that say reports an acknowledgement comes**, or the later one is its answer. -/
theorem Path.accepts_between (h : Path a turns b) (hup : ∀ t ∈ turns, t.after.isUp = true)
    {pre between post : List Turn} {early late : Turn}
    (hturns : turns = pre ++ early :: (between ++ late :: post)) (hearly : early.sends = true)
    (hlate : late.sends = true) : late.accepts = true ∨ ∃ t ∈ between, t.accepts = true := by
  subst hturns
  by_contra hnone
  obtain ⟨hlast, hbetween⟩ := not_or.mp hnone
  have hlisten : late.after.isUp = true := hup late (by simp)
  obtain ⟨c, -, hpath⟩ := path_append.mp h
  cases hpath with
  | cons hfirst hpath =>
    obtain ⟨d, hmiddle, hpath⟩ := path_append.mp hpath
    cases hpath with
    | cons hsecond hpath =>
      -- The link has waited all the time, and so it does when the later one is said.
      have hbusy := hmiddle.busy (busy_of_sends hfirst hearly)
        (fun t ht => Bool.eq_false_iff.mpr fun haccepts => hbetween ⟨t, ht, haccepts⟩)
        (fun t ht => hup t (by simp [ht]))
      obtain ⟨-, hsilent⟩ := busy_of_step hsecond hbusy (Bool.eq_false_iff.mpr hlast) hlisten
      rw [hlate] at hsilent
      cases hsilent

/-- One more turn counts for one or for nothing. -/
theorem countP_cons_eq_toNat (p : Turn → Bool) (t : Turn) (turns : List Turn) :
    (t :: turns).countP p = turns.countP p + (p t).toNat := by
  rw [List.countP_cons]
  cases p t <;> rfl

/-- Turns that say reports are no more than acknowledgements, but for the one that the link waits for. -/
theorem Path.countP_sends_le (h : Path a turns b) (hup : ∀ t ∈ turns, t.after.isUp = true) :
    turns.countP Turn.sends + (decide (a.phase = .busy)).toNat
      ≤ turns.countP Turn.accepts + (decide (b.phase = .busy)).toNat := by
  induction h with
  | nil => exact Nat.le_refl _
  | cons hstep hrest ih =>
    obtain ⟨hup, hups⟩ := List.forall_mem_cons.mp hup
    have hturn := sends_le_accepts hstep hup
    have hpath := ih hups
    rw [countP_cons_eq_toNat, countP_cons_eq_toNat]
    omega

/-! ## Single turns -/

/-- No more than three reports are submitted together: each kind that is not on the way yet brings one
    more. -/
theorem Pipeline.Submits.length_le {tables : PerTarget HoldTable} {p q : Pipeline} {t : Target}
    {rs : List Report} (h : Submits tables p t q rs) :
    rs.length ≤ 1 + (decide (p.inFlight.keyboard = 0)).toNat + (decide (p.inFlight.mouse = 0)).toNat := by
  induction h with
  | mouse | keyboard =>
    simp only [List.length_singleton]
    omega
  | mousePair hr hs hnone => simp [hnone]
  | @keyboardFirst p q k rs hk hnone hmouse ih =>
    -- The keyboard report is on the way before the mouse reports are.
    have hone : (p.launch .keyboard).inFlight.keyboard = 1 := Saturating.raise_one_eq_one.mpr hnone
    have hsame : (p.launch .keyboard).inFlight.mouse = p.inFlight.mouse := rfl
    rw [hone, hsame] at ih
    simp only [List.length_cons, hnone, decide_true, Bool.toNat_true] at ih ⊢
    simp at ih
    omega

/-- A turn says three reports at most. -/
theorem length_sent_le (hstep : a.step input now = .ok (b, out)) :
    (Turn.sent ⟨a, input, now, b, out⟩).length ≤ 3 := by
  have hthree : ∀ {tables : PerTarget HoldTable} {p q : Pipeline} {t : Target} {rs : List Report},
      Pipeline.Submits tables p t q rs → rs.length ≤ 3 := by
    intro tables p q t rs hsub
    have hle := hsub.length_le
    have hkeyboard := Bool.toNat_le (decide (p.inFlight.keyboard = 0))
    have hmouse := Bool.toNat_le (decide (p.inFlight.mouse = 0))
    omega
  cases outcome_of_step hstep with
  | applied he hidle hupd hsub | moved hmotion hidle hsub =>
    rw [Turn.sent, filterMap_kind?_append_activity, List.length_map]
    exact hthree hsub
  | delivered hsome hup hdrain | connected hdown hdrain =>
    rcases hdrain.says with ⟨-, rfl, -⟩ | ⟨_, _, rs, hsub, -, rfl, -⟩
    · exact Nat.zero_le 3
    · rw [Turn.sent, filterMap_kind?_map_report, List.length_map]
      exact hthree hsub
  | _ => exact Nat.zero_le 3

/-- Without a host, only a host that comes is told reports. -/
theorem opens_of_sends (hstep : a.step input now = .ok (b, out)) (hdown : a.phase = .disconnected)
    (hsends : Turn.sends ⟨a, input, now, b, out⟩ = true) :
    Turn.opens ⟨a, input, now, b, out⟩ = true := by
  cases outcome_of_step hstep with
  | applied he hidle | moved hmotion hidle => exact absurd (hdown.symm.trans hidle) (by decide)
  | delivered hsome hup => exact absurd hdown hup
  | connected hdown hdrain => simp [Turn.opens, hdown]
  | _ => cases hsends

/-- **News of a report that is not on the way is not heard**, and without a host no report is. -/
theorem eq_of_step_delivered (hsound : a.Sound) {t : Target}
    (hstep : a.step (.delivered t) now = .ok (b, out))
    (hignored : a.pipeline.inFlight.get t = 0 ∨ a.phase = .disconnected) : b = a ∧ out = [] := by
  have hnone : a.pipeline.inFlight.get t = 0 := by
    rcases hignored with hnone | hdown
    · exact hnone
    · rw [(hsound.disconnected hdown).2, PerTarget.get_same]
  cases outcome_of_step hstep with
  | stray => exact ⟨rfl, rfl⟩
  | late hsome | delivered hsome => exact absurd hnone hsome
  | moved hmotion | moving hmotion => cases hmotion

/-! ## Histories -/

/-- **Reports are paced by acknowledgements.** Whatever the inputs of a history were and whenever they came:
    - while no host listens, a report is said in no turn but one in which a host begins to listen;
    - of any two turns of a session that say reports, the later one is the answer to news of a report that
      was on the way, or such news came in a turn between them;
    - so a session says reports in no more turns than it has heard such news in, and one;
    - no turn says more than three reports;
    - other news of a report, one of a kind that is not on the way or one without a host, changes nothing
      and nothing is said to it. -/
theorem History.sends_paced (h : History layout window turns a) :
    (∀ t ∈ turns, t.before.phase = .disconnected → t.sends = true → t.opens = true)
      ∧ (∀ past opening session rest, turns = past ++ opening :: session ++ rest →
          IsSession opening session →
          (∀ pre early between late post, opening :: session = pre ++ early :: (between ++ late :: post) →
              early.sends = true → late.sends = true →
              late.accepts = true ∨ ∃ t ∈ between, t.accepts = true)
            ∧ (opening :: session).countP Turn.sends ≤ 1 + (opening :: session).countP Turn.accepts)
      ∧ (∀ t ∈ turns, t.sent.length ≤ 3)
      ∧ (∀ t ∈ turns, ∀ k, t.input = .delivered k →
          t.before.pipeline.inFlight.get k = 0 ∨ t.before.phase = .disconnected →
          t.after = t.before ∧ t.said = []) := by
  have hturn : ∀ t ∈ turns, t.before.Sound
      ∧ t.before.step t.input t.now = .ok (t.after, t.said) := by
    intro t ht
    obtain ⟨pre, post, rfl⟩ := List.append_of_mem ht
    obtain ⟨hbefore, hstep⟩ := h.along pre t post rfl
    exact ⟨hbefore.sound, hstep⟩
  refine ⟨?_, ?_, ?_, ?_⟩
  · intro t ht hdown hsends
    exact opens_of_sends (hturn t ht).2 hdown hsends
  · rintro past opening session rest rfl hsession
    obtain ⟨c, hpast, -⟩ := h.split
    obtain ⟨d, -, hpath⟩ := hpast.split
    have hup := hsession.isUp (hturn opening (by simp)).2
    have hcount := hpath.countP_sends_le hup
    have hlast := Bool.toNat_le (decide (c.phase = .busy))
    refine ⟨?_, by omega⟩
    intro pre early between late post hturns hearly hlate
    exact hpath.accepts_between hup hturns hearly hlate
  · intro t ht
    exact length_sent_le (hturn t ht).2
  · intro t ht k hinput hignored
    obtain ⟨hsound, hstep⟩ := hturn t ht
    rw [hinput] at hstep
    exact eq_of_step_delivered hsound hstep hignored

/-- Two keys go down, and the second one is reported when the first report has arrived. Two turns have said
    reports, and one acknowledgement lies between them. -/
theorem sends_paced_two_keys :
    ∃ opening session a, History Layout.standard 500 (opening :: session) a
      ∧ (opening :: session).map Turn.stimulus = [(.link true, 0), (.key 4 true, 1), (.key 5 true, 2),
          (.delivered .media, 3), (.delivered .keyboard, 4)]
      ∧ IsSession opening session ∧ (opening :: session).countP Turn.sends = 2
      ∧ 2 ≤ 1 + (opening :: session).countP Turn.accepts := by
  obtain ⟨turns, a, h, hinputs, hstate⟩ := exists_history Layout.standard 500
    [(.link true, 0), (.key 4 true, 1), (.key 5 true, 2), (.delivered .media, 3), (.delivered .keyboard, 4)]
    (fun turns _ => turns.head?.any Turn.opens && turns.tail.all (fun t => t.after.isUp)
      && turns.countP Turn.sends = 2) (by decide +kernel)
  cases turns with
  | nil => cases hinputs
  | cons opening session =>
    simp only [Bool.and_eq_true, decide_eq_true_eq] at hstate
    obtain ⟨⟨hopens, hlistens⟩, hsends⟩ := hstate
    have hsession : IsSession opening session := ⟨hopens, List.all_eq_true.mp hlistens⟩
    refine ⟨opening, session, a, h, hinputs, hsession, hsends, ?_⟩
    have hcount := (h.sends_paced.2.1 [] opening session [] (by simp) hsession).2
    rwa [hsends] at hcount

end Peripheral
