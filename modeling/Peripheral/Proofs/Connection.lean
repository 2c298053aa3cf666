import Mathlib.Data.List.Chain
import Peripheral.Proofs.Running

/-!
# `Peripheral.Proofs.Connection` — everyone comes to know of the host

The host's choice of configuration takes a long way: a value that the next choice overwrites, a watch that
announces changes only, the input channel, the aggregator, and another value that can be overwritten, which
the power watch takes. Followed from its end to its beginning, each copy is the latest news of the copy
before it, so what has been heard, what waits and what is about to be announced make up one list in which
up and down take turns. Once every task has to wait, nothing of it is left on the way, and all copies agree.

## Contents
- `Alternate`, `latest`: news that take turns, and the last of them.
- `PowerWatch.heard`: what the power watch has been told.
- `linkNews`, `choices`: what the aggregator has heard, and what the host has chosen.
- `World.Follows`, `Follows.go`: every copy follows the one before it.
- `Course.link_agrees`: they agree when the device is at rest.
-/

namespace Peripheral

/-! ## News -/

/-- Up and down take turns, beginning with up. -/
def Alternate (news : List Bool) : Prop := List.IsChain (· ≠ ·) (false :: news)

/-- The latest news, which is down without any. -/
def latest (news : List Bool) : Bool := news.getLast?.getD false

/-- One more piece of news, or none. -/
theorem latest_append_toList (news : List Bool) (o : Option Bool) :
    latest (news ++ o.toList) = o.getD (latest news) := by
  cases o with
  | none => simp
  | some v => simp [latest]

theorem Alternate.left {news later : List Bool} (h : Alternate (news ++ later)) : Alternate news :=
  List.IsChain.left_of_append h

/-- A change continues the turns. -/
theorem Alternate.append_singleton {news : List Bool} (h : Alternate news) {v : Bool}
    (hne : v ≠ latest news) : Alternate (news ++ [v]) := by
  refine List.isChain_append.mpr ⟨h, List.isChain_singleton v, ?_⟩
  intro x hx y hy
  rw [List.getLast?_cons] at hx
  cases hx
  cases hy
  exact hne.symm

/-! ## The ends of the way -/

/-- News of the bus is no news of the link. -/
theorem PowerMonitor.subscribed_setSuspended (m : PowerMonitor) (suspended : Bool) (clock : Nat) :
    (m.setSuspended suspended clock).1.subscribed = m.subscribed := by
  unfold setSuspended
  split
  · rfl
  · cases suspended <;> rfl

namespace PowerWatch

/-- What the power watch has been told of the link last. -/
def heard (p : PowerWatch) : Bool := p.subscribed.getD p.monitor.subscribed

theorem heard_told (p : PowerWatch) (input : Input) : (p.told input).heard = input.link?.getD p.heard := by
  cases input <;> rfl

/-- **Taking what was told does not change it.** -/
theorem heard_step? {clock : Nat} {p q : PowerWatch} {notices : List PowerNotice}
    (h : p.step? clock = some (q, notices)) : q.heard = p.heard := by
  cases takes_of_step? h with
  | activity | tick => rfl
  | @subscribed value _ hgiven =>
    rw [heard, heard, hgiven]
    cases value <;> rfl
  | suspended =>
    show p.subscribed.getD (p.monitor.setSuspended _ clock).1.subscribed = _
    rw [PowerMonitor.subscribed_setSuspended]
    rfl

end PowerWatch

end Peripheral

namespace Peripheral.Firmware

/-- What a course has let the aggregator hear of the link. -/
def linkNews (legs : List Leg) : List Bool := legs.filterMap fun leg => leg.handled?.bind Input.link?

/-- What the host has chosen in a course. -/
def choices (legs : List Leg) : List Bool := legs.filterMap fun leg => leg.move.choice?

/-! ## Copies that follow each other -/

namespace World

variable {w v : World} {move : Move} {seen : List Entry}

/-- News of the link that the aggregator has not heard yet, oldest first: those that wait, and the one that
    is about to be announced. -/
def comingNews (w : World) : List Bool :=
  w.inputs.queued.filterMap Input.link? ++ if w.link.announcing then [w.link.enabled] else []

/-- **Every copy follows the one before it**:
    - `alternate`: news that were heard and news that come take turns;
    - `link`: the watch over the host's configuration knows what was announced last;
    - `choice`: it knows the host's latest choice, or will take it;
    - `phase`: the aggregator has done what it heard last;
    - `power`: the power watch knows that too, or will take it. -/
structure Follows (w : World) (news : List Bool) (choice : Bool) : Prop where
  alternate : Alternate (news ++ w.comingNews)
  link : latest (news ++ w.comingNews) = w.link.enabled
  choice : w.configured.getD w.link.enabled = choice
  phase : w.aggregator.isUp = latest news
  power : w.power.heard = latest news

theorem follows_initial : initial.Follows [] false where
  alternate := List.isChain_singleton false
  link := rfl
  choice := rfl
  phase := rfl
  power := rfl

/-- Passing outputs on tells the power watch of activity at most. -/
theorem power_passAll (w : World) (out : List Output) :
    ∃ activity, (w.passAll out).1.power = { w.power with activity := activity } := by
  induction out generalizing w with
  | nil => exact ⟨_, rfl⟩
  | cons o rest ih =>
    obtain ⟨activity, hrest⟩ := ih (w.pass o).1
    refine ⟨activity, hrest.trans ?_⟩
    cases o with
    | activity => rfl
    | report r =>
      unfold pass
      dsimp only
      split <;> rfl

/-- What is sent waits behind the news that wait. -/
theorem news_send? {input : Input} {inputs : Channel Input}
    (hsend : w.inputs.send? input = some inputs) :
    inputs.queued.filterMap Input.link?
      = w.inputs.queued.filterMap Input.link? ++ input.link?.toList := by
  rw [Channel.queued_send? hsend, List.filterMap_append]
  cases input <;> rfl

/-- **Every move keeps the copies following each other.** -/
theorem Follows.go {news : List Bool} {choice : Bool} (h : w.Follows news choice) (hhealthy : w.Healthy)
    (hgo : w.go? move = some (v, seen)) :
    v.Follows (news ++ ((Leg.mk w move v seen).handled?.bind Input.link?).toList)
      (move.choice?.getD choice) := by
  by_cases hmove : move = .step .aggregator
  · subst hmove
    obtain ⟨input, a, out, inputs, hnext, hstep, hqueued, -, hpass⟩ := hhealthy.handles hgo
    obtain ⟨reports, power, kept, hframe, -, -⟩ :=
      passAll_eq { w with inputs := inputs, power := w.power.told input, aggregator := a } out
    obtain ⟨activity, hpower⟩ :=
      power_passAll { w with inputs := inputs, power := w.power.told input, aggregator := a } out
    rw [hpass] at hframe hpower
    subst hframe
    change power = { w.power.told input with activity := activity } at hpower
    subst hpower
    rw [show (Leg.handled? _).bind Input.link? = input.link? by rw [Leg.handled?, if_pos rfl, hnext]; rfl]
    -- What is heard now has been the first of the news to come.
    have hcoming : w.comingNews = input.link?.toList
        ++ (inputs.queued.filterMap Input.link? ++ if w.link.announcing then [w.link.enabled] else []) := by
      rw [comingNews, filterMap_inputs rfl hnext hqueued, List.append_assoc]
    have halternate := h.alternate
    have hlink := h.link
    rw [hcoming, ← List.append_assoc] at halternate hlink
    refine ⟨halternate, hlink, h.choice, ?_, ?_⟩
    · rw [latest_append_toList, ← h.phase]
      exact Aggregator.isUp_of_step hstep
    · rw [latest_append_toList, ← h.power, ← PowerWatch.heard_told]
      rfl
  · rw [Leg.handled?, if_neg hmove, Option.bind_none, Option.toList_none, List.append_nil]
    cases goes_of_go hgo hmove with
    | @sends t input inputs writer buttons hsend hready hlink =>
      have hcoming : comingNews { w with inputs := inputs, writer := writer, buttons := buttons }
          = w.comingNews := by
        rw [comingNews, comingNews, news_send? hsend, hlink, Option.toList_none, List.append_nil]
      exact { h with alternate := hcoming ▸ h.alternate, link := hcoming ▸ h.link }
    | @announces inputs hwaits hsend =>
      have hcoming : comingNews { w with
          inputs := inputs, link := { w.link with announcing := false } } = w.comingNews := by
        rw [comingNews, comingNews, news_send? hsend, hwaits]
        exact List.append_nil _
      exact { h with alternate := hcoming ▸ h.alternate, link := hcoming ▸ h.link }
    | keeps hchoice =>
      refine { h with choice := ?_ }
      rw [← h.choice, hchoice]
      rfl
    | @changes choice' hquiet hchoice hne =>
      -- A choice that was taken is no news unless it is a change.
      have hcoming : comingNews { w with configured := none, link := ⟨choice', true⟩ }
          = w.comingNews ++ [choice'] := by
        rw [comingNews, comingNews, hquiet]
        simp
      refine ⟨?_, ?_, ?_, h.phase, h.power⟩
      · rw [hcoming, ← List.append_assoc]
        exact h.alternate.append_singleton (h.link ▸ hne)
      · rw [hcoming, ← List.append_assoc]
        exact latest_append_toList _ (some choice')
      · rw [← h.choice, hchoice]
        rfl
    | watches hstep => exact { h with power := (PowerWatch.heard_step? hstep).trans h.power }
    | chooses => exact { h with choice := rfl }
    | suspends => exact { h with }
    | aside hnone =>
      rw [hnone]
      exact { h with }

/-- At rest every choice and every piece of news was taken. -/
theorem Healthy.news_of_atRest (h : w.Healthy) (hrest : w.atRest = true) :
    w.configured = none ∧ w.power.subscribed = none ∧ w.comingNews = [] := by
  have hsubscribed : w.power.subscribed = none := by
    cases h.waits hrest .power with
    | power hnone => exact (PowerWatch.quiet_of_step?_eq_none hnone).1.subscribed
  cases h.waits hrest .linkWatch with
  | announcement _ hfull => exact absurd hfull (h.send?_of_atRest hrest _)
  | choice hquiet hnone =>
    refine ⟨hnone, hsubscribed, ?_⟩
    rw [comingNews, h.inputs_of_atRest hrest, hquiet]
    rfl

end World

/-- The copies follow each other in every course. -/
theorem Course.follows {legs : List Leg} {w : World} (h : Course legs w) :
    w.Follows (linkNews legs) (latest (choices legs)) := by
  induction h with
  | powerOn => exact World.follows_initial
  | @leg legs w v move seen h hgo ih =>
    have hnews : linkNews (legs ++ [⟨w, move, v, seen⟩])
        = linkNews legs ++ ((Leg.mk w move v seen).handled?.bind Input.link?).toList := by
      rw [linkNews, List.filterMap_append]
      cases hlast : (Leg.mk w move v seen).handled?.bind Input.link? <;> simp [hlast, linkNews]
    have hchoices : latest (choices (legs ++ [⟨w, move, v, seen⟩]))
        = move.choice?.getD (latest (choices legs)) := by
      rw [← latest_append_toList, choices, List.filterMap_append]
      cases hlast : move.choice? <;> simp [hlast, choices]
    rw [hnews, hchoices]
    exact ih.go h.healthy hgo

/-- **Everyone comes to know of the host.** Whatever the host has chosen and however the tasks took turns:
    - the aggregator hears of a host that comes, then of one that goes, and so on in turns;
    - once every task has to wait, no choice and no news is left to be taken, a host listens for the
      aggregator if and only if the host's latest choice was to configure the device, and the power
      monitor knows the same. -/
theorem Course.link_agrees {legs : List Leg} {w : World} (h : Course legs w) :
    Alternate (linkNews legs)
      ∧ (w.atRest = true →
        (w.configured = none ∧ w.inputs.queued = [] ∧ w.power.subscribed = none)
          ∧ (w.aggregator.phase ≠ .disconnected ↔ latest (choices legs) = true)
          ∧ w.power.monitor.subscribed = latest (choices legs)) := by
  have hfollows := h.follows
  refine ⟨hfollows.alternate.left, ?_⟩
  intro hrest
  obtain ⟨hconfigured, hsubscribed, hcoming⟩ := h.healthy.news_of_atRest hrest
  have hlink := hfollows.link
  have hchoice := hfollows.choice
  have hpower := hfollows.power
  rw [hcoming, List.append_nil] at hlink
  rw [hconfigured, Option.getD_none] at hchoice
  rw [PowerWatch.heard, hsubscribed, Option.getD_none] at hpower
  refine ⟨⟨hconfigured, h.healthy.inputs_of_atRest hrest, hsubscribed⟩, ?_, ?_⟩
  · rw [← hchoice, ← hlink, ← hfollows.phase, Aggregator.isUp, decide_eq_true_eq]
  · rw [hpower, hlink, hchoice]

/-- The host configures the device, takes that back, and at once configures it again before anyone has seen
    the change; then it goes and comes back for all to see. -/
theorem link_agrees_overwritten :
    ∃ legs w, Course legs w ∧ choices legs = [true, false, true, false, true]
      ∧ linkNews legs = [true, false, true] ∧ w.atRest = true
      ∧ Alternate (linkNews legs) ∧ w.aggregator.phase ≠ .disconnected
      ∧ w.power.monitor.subscribed = true := by
  obtain ⟨legs, leg, w, h, -, hleg⟩ := exists_course
    [.step .aggregator, .step .usb, .step .writer, .step (.button .first), .step (.button .second),
      .step (.button .third), .step (.button .fourth), .outside (.configured true), .step .linkWatch,
      .outside (.configured false), .step .linkWatch, .outside (.configured true), .step .linkWatch,
      .step .aggregator, .outside (.configured false), .step .linkWatch, .step .linkWatch, .step .aggregator,
      .outside (.configured true), .step .linkWatch, .step .linkWatch, .step .aggregator, .step .power]
    (fun legs leg => decide (choices (legs ++ [leg]) = [true, false, true, false, true]
      ∧ linkNews (legs ++ [leg]) = [true, false, true] ∧ leg.after.atRest = true)) (by decide +kernel)
  rw [h.after_eq] at hleg
  obtain ⟨hchoices, hnews, hrest⟩ := of_decide_eq_true hleg
  obtain ⟨halternate, hagrees⟩ := h.link_agrees
  obtain ⟨-, hphase, hpower⟩ := hagrees hrest
  rw [hchoices] at hphase hpower
  exact ⟨_, w, h, hchoices, hnews, hrest, halternate, hphase.mpr rfl, hpower⟩

end Peripheral.Firmware
