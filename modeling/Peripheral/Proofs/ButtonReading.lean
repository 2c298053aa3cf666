import Mathlib.Data.List.DropRight
import Mathlib.Data.List.Induction
import Peripheral.Firmware.Button
import Peripheral.Proofs.Connection

/-!
# `Peripheral.Proofs.ButtonReading` — what a button's events are founded on

The reading of a button goes round in a circle, and each half of it ends with an event: the press when a high
level was followed by a low one that was there again after the debounce time, the release when a high level was
followed by that time. A press that is rejected starts its half anew, and an event that finds no room waits at the
end of it. So the phase tells what has been seen since the last event, and whatever an event is founded on was seen
after the event before.

## Contents
- `Glance`: what a step saw and did.
- `ButtonPhase.reported`: the event that was sent last, read off the phase.
- `World.stepButton?_eq`: the task of a button steps as its reading does.
- `Readings`, `events`, `sinceEvent`: some steps one after the other, and those since the last event.
- `ButtonPhase.Account`, `Readings.account`: what a phase tells of the steps that led to it.
- `Grounded`, `Readings.grounded`: what an event is founded on.
-/

namespace Peripheral.Firmware

/-- The event that a deed sends. -/
def ButtonDeed.sent? : ButtonDeed → Option Bool
  | .send pressed => some pressed
  | _ => none

/-- **A glance**: what the task of a button saw in a step, when that was, and what it did besides. -/
structure Glance where
  clock : Nat
  low : Bool
  deed : ButtonDeed
  deriving DecidableEq, Repr

/-! ## One step -/

namespace ButtonPhase

variable {clock : Nat} {low room : Bool} {phase next : ButtonPhase} {deed : ButtonDeed}

/-- The event that was sent last is a press. -/
def reported : ButtonPhase → Bool
  | held | releasing _ | released => true
  | resting | armed | pressing _ | pressed => false

/-- A step that sends something changes what was reported, and no other step does. -/
theorem Reads.reported_eq (h : Reads clock low phase next deed) :
    next.reported = deed.sent?.getD phase.reported := by
  cases h <;> rfl

/-- Only news is sent. -/
theorem Reads.sent?_ne (h : Reads clock low phase next deed) {pressed : Bool}
    (hsent : deed.sent? = some pressed) : pressed ≠ phase.reported := by
  cases h <;> cases hsent <;> decide

end ButtonPhase

/-! ## The task of a button -/

/-- The log line of a deed. -/
def ButtonDeed.logged (key : UInt16) : ButtonDeed → List Entry
  | .decide pressed => [.notice (.button key pressed)]
  | _ => []

/-- The world after a step of a button's task that leads to a phase and sends an event or nothing. -/
def World.afterReading (w : World) (b : Button) (phase : ButtonPhase) (sent : List Bool) : World :=
  { w with
    buttons := w.buttons.set b phase
    inputs := { w.inputs with queued := w.inputs.queued ++ sent.map (.key b.key) } }

/-- **The task of a button** steps as its reading does. Who sends has looked for room before. -/
theorem World.stepButton?_eq (w : World) (b : Button) :
    w.stepButton? b = ((w.buttons.get b).step? w.clock (w.low.get b) w.inputs.hasRoom).map fun r =>
      (w.afterReading b r.1 r.2.sent?.toList, r.2.logged b.key) := by
  unfold stepButton? afterReading
  cases hstep : (w.buttons.get b).step? w.clock (w.low.get b) w.inputs.hasRoom with
  | none => rfl
  | some r =>
    obtain ⟨phase, deed⟩ := r
    cases deed with
    | nothing | decide => simp [ButtonDeed.sent?, ButtonDeed.logged]
    | send pressed =>
      simp [ButtonDeed.sent?, ButtonDeed.logged, Channel.send?, ButtonPhase.room_of_send hstep]

/-! ## Steps one after the other -/

/-- **Readings.** The task of a button has taken steps with these glances, and stands at a phase now. -/
inductive Readings : List Glance → ButtonPhase → Prop
  | start : Readings [] .resting
  | step {glances : List Glance} {phase next : ButtonPhase} {g : Glance} (h : Readings glances phase)
      (hlater : ∀ e ∈ glances, e.clock ≤ g.clock) (hreads : phase.Reads g.clock g.low next g.deed) :
      Readings (glances ++ [g]) next

/-- The events that were sent. -/
def events (glances : List Glance) : List Bool := glances.filterMap fun g => g.deed.sent?

/-- The glances since the last event was sent. -/
def sinceEvent (glances : List Glance) : List Glance := glances.rtakeWhile fun g => g.deed.sent?.isNone

theorem events_append_singleton (glances : List Glance) (g : Glance) :
    events (glances ++ [g]) = events glances ++ g.deed.sent?.toList := by
  rw [events, List.filterMap_append]
  cases h : g.deed.sent? <;> simp [h, events]

theorem sinceEvent_append_singleton (glances : List Glance) (g : Glance) :
    sinceEvent (glances ++ [g]) = if g.deed.sent? = none then sinceEvent glances ++ [g] else [] := by
  simp [sinceEvent, List.rtakeWhile_concat]

variable {glances past later : List Glance} {phase : ButtonPhase} {g : Glance}

/-- The steps of some readings, one by one. -/
theorem Readings.along (h : Readings (past ++ g :: later) phase) :
    ∃ before after, Readings past before ∧ before.Reads g.clock g.low after g.deed
      ∧ ∀ e ∈ past, e.clock ≤ g.clock := by
  generalize hall : past ++ g :: later = all at h
  induction h generalizing later with
  | start => simp at hall
  | step h hlater hreads ih =>
    rcases split_append_singleton hall.symm with ⟨rfl, rfl⟩ | ⟨init, hinit⟩
    · exact ⟨_, _, h, hreads, hlater⟩
    · exact ih hinit.symm

/-- **Press and release take turns**, and the phase tells which one was sent last. -/
theorem Readings.alternate (h : Readings glances phase) :
    Alternate (events glances) ∧ latest (events glances) = phase.reported := by
  induction h with
  | start => exact ⟨List.isChain_singleton false, rfl⟩
  | @step glances phase next g h hlater hreads ih =>
    obtain ⟨halternate, hlatest⟩ := ih
    rw [events_append_singleton]
    refine ⟨?_, ?_⟩
    · cases hsent : g.deed.sent? with
      | none => rwa [Option.toList_none, List.append_nil]
      | some pressed => exact halternate.append_singleton (hlatest ▸ hreads.sent?_ne hsent)
    · rw [latest_append_toList, hlatest, hreads.reported_eq]

/-- What was seen since the last event was seen after every event. -/
theorem Readings.clock_le_sinceEvent (h : Readings glances phase) {e f : Glance} (he : e ∈ glances)
    (hsent : e.deed.sent? ≠ none) (hf : f ∈ sinceEvent glances) : e.clock ≤ f.clock := by
  induction h with
  | start => cases he
  | @step glances phase next g h hlater hreads ih =>
    rw [sinceEvent_append_singleton] at hf
    split at hf
    · next hquiet =>
      have he : e ∈ glances := by
        rcases List.mem_append.mp he with he | he
        · exact he
        · rw [List.mem_singleton.mp he] at hsent
          exact absurd hquiet hsent
      rcases List.mem_append.mp hf with hf | hf
      · exact ih he hf
      · rw [List.mem_singleton.mp hf]
        exact hlater e he
    · cases hf

/-! ## What a phase tells -/

/-- Since the last event the level was seen to be high, then low, and low again when a press was decided upon, after
    the debounce time. -/
def PressFounded (past : List Glance) : Prop :=
  ∃ high fall decision, [high, fall, decision].Sublist (sinceEvent past)
    ∧ high.low = false ∧ fall.low = true ∧ decision.low = true ∧ decision.deed = .decide true
    ∧ fall.clock + 20 ≤ decision.clock

/-- Since the last event the level was seen to be high, and a release was decided upon after the debounce time. -/
def ReleaseFounded (past : List Glance) : Prop :=
  ∃ high decision, [high, decision].Sublist (sinceEvent past)
    ∧ high.low = false ∧ decision.deed = .decide false ∧ high.clock + 20 ≤ decision.clock

/-- **What a phase tells of the glances that led to it.** -/
def ButtonPhase.Account (glances : List Glance) : ButtonPhase → Prop
  | resting | held => True
  | armed => ∃ high, [high].Sublist (sinceEvent glances) ∧ high.low = false
  | pressing due => ∃ high fall, [high, fall].Sublist (sinceEvent glances) ∧ high.low = false ∧ fall.low = true
      ∧ due = fall.clock + 20
  | pressed => PressFounded glances
  | releasing due => ∃ high, [high].Sublist (sinceEvent glances) ∧ high.low = false ∧ due = high.clock + 20
  | released => ReleaseFounded glances

/-- A step that sends nothing is seen behind what was seen before. -/
theorem sublist_sinceEvent {seen : List Glance} (h : seen.Sublist (sinceEvent glances))
    (hquiet : g.deed.sent? = none) : (seen ++ [g]).Sublist (sinceEvent (glances ++ [g])) := by
  rw [sinceEvent_append_singleton, if_pos hquiet]
  exact h.append (List.Sublist.refl [g])

/-- **Each step leaves an account of itself.** -/
theorem ButtonPhase.Account.step {next : ButtonPhase} (h : phase.Account glances)
    (hreads : phase.Reads g.clock g.low next g.deed) : next.Account (glances ++ [g]) := by
  generalize hdeed : g.deed = deed at hreads
  cases hreads with
  | rise hlow =>
    exact ⟨g, sublist_sinceEvent (List.nil_sublist _) (by rw [hdeed]; rfl), hlow⟩
  | fall hlow =>
    obtain ⟨high, hseen, hhigh⟩ := h
    exact ⟨high, g, sublist_sinceEvent hseen (by rw [hdeed]; rfl), hhigh, hlow, rfl⟩
  | confirm hdue hlow =>
    obtain ⟨high, fall, hseen, hhigh, hfall, rfl⟩ := h
    exact ⟨high, fall, g, sublist_sinceEvent hseen (by rw [hdeed]; rfl), hhigh, hfall, hlow, hdeed, hdue⟩
  | reject | press | release => trivial
  | leave hlow =>
    exact ⟨g, sublist_sinceEvent (List.nil_sublist _) (by rw [hdeed]; rfl), hlow, rfl⟩
  | settle hdue =>
    obtain ⟨high, hseen, hhigh, rfl⟩ := h
    exact ⟨high, g, sublist_sinceEvent hseen (by rw [hdeed]; rfl), hhigh, hdeed, hdue⟩

theorem Readings.account (h : Readings glances phase) : phase.Account glances := by
  induction h with
  | start => trivial
  | step h hlater hreads ih => exact ih.step hreads

/-! ## What an event is founded on -/

/-- **The glance `g` has its grounds in those before it**: a press that it sends follows a release or nothing, a release
    follows a press, both were seen to settle since then, and no event lies less than the debounce time before. -/
structure Grounded (past : List Glance) (g : Glance) : Prop where
  later : ∀ e ∈ past, e.clock ≤ g.clock
  press : g.deed = .send true → latest (events past) = false ∧ PressFounded past
  release : g.deed = .send false → latest (events past) = true ∧ ReleaseFounded past
  apart : g.deed.sent? ≠ none → ∀ e ∈ past, e.deed.sent? ≠ none → e.clock + 20 ≤ g.clock

/-- What was seen since the last event belongs to what was seen before. -/
theorem mem_of_sublist_sinceEvent {seen : List Glance} (h : seen.Sublist (sinceEvent past)) {e : Glance}
    (he : e ∈ seen) : e ∈ past :=
  (List.rtakeWhile_suffix _ _).subset (h.subset he)

/-- **Every event has its grounds.** -/
theorem Readings.grounded (h : Readings (past ++ g :: later) phase) : Grounded past g := by
  obtain ⟨before, after, hpast, hreads, hlater⟩ := h.along
  have haccount := hpast.account
  have hlatest := hpast.alternate.2
  -- The time to settle began behind every event, and was over when this one was sent.
  have hapart : ∀ {seen : List Glance} {f decision : Glance}, seen.Sublist (sinceEvent past) → f ∈ seen →
      decision ∈ seen → f.clock + 20 ≤ decision.clock →
      ∀ e ∈ past, e.deed.sent? ≠ none → e.clock + 20 ≤ g.clock := by
    intro seen f decision hseen hf hdecision hsettled e he hsent
    have hbegin := hpast.clock_le_sinceEvent he hsent (hseen.subset hf)
    have hend := hlater decision (mem_of_sublist_sinceEvent hseen hdecision)
    omega
  generalize hdeed : g.deed = deed at hreads
  cases hreads with
  | press =>
    refine ⟨hlater, fun _ => ⟨hlatest, haccount⟩, ?_, fun _ => ?_⟩
    · rw [hdeed]
      intro hrelease
      cases hrelease
    · obtain ⟨high, fall, decision, hseen, -, -, -, -, hsettled⟩ := haccount
      exact hapart hseen (by simp) (by simp) hsettled
  | release =>
    refine ⟨hlater, ?_, fun _ => ⟨hlatest, haccount⟩, fun _ => ?_⟩
    · rw [hdeed]
      intro hpress
      cases hpress
    · obtain ⟨high, decision, hseen, -, -, hsettled⟩ := haccount
      exact hapart hseen (by simp) (by simp) hsettled
  | _ =>
    -- Nothing is sent.
    refine ⟨hlater, ?_, ?_, ?_⟩ <;> rw [hdeed] <;> intro hsent
    · cases hsent
    · cases hsent
    · exact absurd rfl hsent

end Peripheral.Firmware
