import Mathlib.Data.List.Induction
import Mathlib.Order.Bounds.Basic
import Peripheral.Proofs.Connection
import Peripheral.Proofs.PowerSaving

/-!
# `Peripheral.Proofs.UpToDate` — a poll leaves the power watch up to date

A signal that is overwritten before it is taken is lost, and a watch that is polled late finds several ticks due
at once. Neither matters. Whatever a poll takes is one call of the monitor, and the calls come in a fixed order,
ticks last. What the watch has been told does not change when it is taken, and neither does the time of the
latest use, since a use that is signalled is dated by the poll that takes it. So a poll can be read off the
signals that wait at its beginning; and however many ticks it takes, the last of them sets the mode when every
signal was taken.

## Contents
- `PowerWatch.Taken`, `taken_poll`: what a poll keeps while it takes one thing after the other.
- `WatchEvent.Heard`, `foldl_occur`: what waits after some signals.
- `TimedWatch.run`, `Uses`, `UsedAt`: histories, one list of events for each poll, and the uses in them.
- `TimedWatch.keeps_up_to_date`: what the watch knows after a poll, in terms of its history.
-/

namespace Peripheral

/-! ## What taking does not change -/

namespace PowerWatch

variable {clock : Nat} {p q r : PowerWatch}

/-- The monitor of a watch after a call at `clock`. -/
def called (clock : Nat) (p : PowerWatch) (call : MonitorEvent) : PowerMonitor :=
  (TimedMonitor.step ⟨clock, p.monitor⟩ call).1.monitor

/-- What the power watch has been told of the bus last. -/
def heardBus (p : PowerWatch) : Bool := p.suspended.getD p.monitor.suspended

/-- A use of the device was signalled and waits to be taken. -/
def UseWaits (p : PowerWatch) : Prop :=
  p.activity = true ∨ p.subscribed = some true ∨ p.suspended = some false ∧ p.monitor.suspended = true

instance (p : PowerWatch) : Decidable p.UseWaits := inferInstanceAs (Decidable (_ ∨ _))

/-- The time of the latest use for a watch that takes its signals at `clock`. -/
def latestUse (clock : Nat) (p : PowerWatch) : Nat := if p.UseWaits then clock else p.monitor.lastActivity

theorem Quiet.not_useWaits (h : p.Quiet) : ¬ p.UseWaits := by
  simp [UseWaits, h.activity, h.subscribed, h.suspended]

theorem Quiet.latestUse_eq (h : p.Quiet) : p.latestUse clock = p.monitor.lastActivity :=
  if_neg h.not_useWaits

theorem lastActivity_called (clock : Nat) (p : PowerWatch) (call : MonitorEvent) :
    (p.called clock call).lastActivity
      = if call.isUse p.monitor.suspended then clock else p.monitor.lastActivity :=
  TimedMonitor.lastActivity_step ⟨clock, p.monitor⟩ call

theorem suspended_called (clock : Nat) (p : PowerWatch) (call : MonitorEvent) :
    (p.called clock call).suspended = call.suspended?.getD p.monitor.suspended :=
  TimedMonitor.suspended_step ⟨clock, p.monitor⟩ call

theorem Takes.heardBus_eq (h : p.Takes clock q) : q.heardBus = p.heardBus := by
  cases h with
  | activity => exact congrArg p.suspended.getD (suspended_called clock p .activity)
  | @subscribed value => exact congrArg p.suspended.getD (suspended_called clock p (.subscribed value))
  | @suspended value _ _ hgiven =>
    rw [heardBus, heardBus, hgiven]
    exact suspended_called clock p (.suspended value)
  | tick => exact congrArg p.suspended.getD (suspended_called clock p .tick)

/-- A use that is taken is dated by `clock`, and so will be one that still waits. -/
theorem Takes.latestUse_eq (h : p.Takes clock q) : q.latestUse clock = p.latestUse clock := by
  have hdated : ∀ call, q.monitor = p.called clock call →
      (q.UseWaits ∨ call.isUse p.monitor.suspended = true ↔ p.UseWaits) →
      q.latestUse clock = p.latestUse clock := by
    intro call hcall hiff
    rw [latestUse, hcall, lastActivity_called, ← ite_or]
    exact if_congr hiff rfl rfl
  cases h with
  | activity hgiven =>
    refine hdated .activity rfl ?_
    simp [UseWaits, MonitorEvent.isUse, hgiven]
  | @subscribed value hactivity hgiven =>
    have hbus : (p.monitor.setSubscribed value clock).1.suspended = p.monitor.suspended :=
      suspended_called clock p (.subscribed value)
    refine hdated (.subscribed value) rfl ?_
    simp [UseWaits, MonitorEvent.isUse, hbus, hactivity, hgiven, or_comm]
  | @suspended value hactivity hsubscribed hgiven =>
    refine hdated (.suspended value) rfl ?_
    simp [UseWaits, MonitorEvent.isUse, hactivity, hsubscribed, hgiven, and_comm]
  | tick hquiet hdue =>
    refine hdated .tick rfl ?_
    simp [UseWaits, MonitorEvent.isUse, hquiet.activity, hquiet.subscribed, hquiet.suspended]

/-! ## A poll -/

/-- **What `q` has kept of `p`** if it was reached by taking one thing after the other at `clock`: all that was told,
    and the time of the latest use. Once a tick was taken the signals are gone, and the mode is the one that is
    due. -/
structure Taken (clock : Nat) (p q : PowerWatch) : Prop where
  heard : q.heard = p.heard
  heardBus : q.heardBus = p.heardBus
  latestUse : q.latestUse clock = p.latestUse clock
  rhythm : ∃ ticks, q.nextTick = p.nextTick + Limits.tick * ticks
  ticked : q.nextTick ≠ p.nextTick →
    q.Quiet ∧ q.nextTick ≤ clock + Limits.tick ∧ q.monitor.mode = q.monitor.dueMode clock

theorem Taken.refl (clock : Nat) (p : PowerWatch) : Taken clock p p where
  heard := rfl
  heardBus := rfl
  latestUse := rfl
  rhythm := ⟨0, rfl⟩
  ticked hne := absurd rfl hne

theorem Taken.step (h : Taken clock p q) {notices : List PowerNotice}
    (hstep : q.step? clock = some (r, notices)) : Taken clock p r := by
  have htakes := takes_of_step? hstep
  refine ⟨(heard_step? hstep).trans h.heard, htakes.heardBus_eq.trans h.heardBus,
    htakes.latestUse_eq.trans h.latestUse, ?_, ?_⟩
  · obtain ⟨ticks, hticks⟩ := h.rhythm
    cases htakes with
    | tick => exact ⟨ticks + 1, by rw [hticks, Nat.mul_succ, Nat.add_assoc]⟩
    | _ => exact ⟨ticks, hticks⟩
  · -- No signal is left to be taken after a tick.
    intro hne
    cases htakes with
    | activity hgiven => rw [(h.ticked hne).1.activity] at hgiven; cases hgiven
    | subscribed hactivity hgiven => rw [(h.ticked hne).1.subscribed] at hgiven; cases hgiven
    | suspended hactivity hsubscribed hgiven => rw [(h.ticked hne).1.suspended] at hgiven; cases hgiven
    | tick hquiet hdue =>
      exact ⟨⟨hquiet.activity, hquiet.subscribed, hquiet.suspended⟩, Nat.add_le_add_right hdue _, rfl⟩

theorem taken_poll (clock : Nat) (p : PowerWatch) : Taken clock p (p.poll clock).1 :=
  Stepping.exhaust_invariant (fun _ _ _ hstep h => h.step hstep) _ (.refl clock p)

/-- **What a poll takes**, read off the signals that wait at its beginning. -/
theorem poll_takes (clock : Nat) (p : PowerWatch) :
    (p.poll clock).1.Quiet
      ∧ (p.poll clock).1.monitor.subscribed = p.heard
      ∧ (p.poll clock).1.monitor.suspended = p.heardBus
      ∧ (p.poll clock).1.monitor.lastActivity = p.latestUse clock
      ∧ (p.nextTick ≤ clock → (p.poll clock).1.monitor.mode = (p.poll clock).1.monitor.dueMode clock) := by
  obtain ⟨hquiet, hnext⟩ := quiet_of_step?_eq_none (p.step?_poll clock)
  have h := taken_poll clock p
  refine ⟨hquiet, ?_, ?_, ?_, ?_⟩
  · rw [← h.heard, heard, hquiet.subscribed, Option.getD_none]
  · rw [← h.heardBus, heardBus, hquiet.suspended, Option.getD_none]
  · rw [← h.latestUse, hquiet.latestUse_eq]
  · intro hdue
    exact (h.ticked (by omega)).2.2

/-- A poll takes ticks until the next one is still to come. -/
theorem nextTick_poll (h : p.nextTick ≤ clock + Limits.tick) :
    ∃ ticks, (p.poll clock).1.nextTick = p.nextTick + Limits.tick * ticks
      ∧ clock < (p.poll clock).1.nextTick ∧ (p.poll clock).1.nextTick ≤ clock + Limits.tick := by
  have htaken := taken_poll clock p
  obtain ⟨ticks, hticks⟩ := htaken.rhythm
  refine ⟨ticks, hticks, (quiet_of_step?_eq_none (p.step?_poll clock)).2, ?_⟩
  by_cases hsame : (p.poll clock).1.nextTick = p.nextTick
  · rwa [hsame]
  · exact (htaken.ticked hsame).2.1

end PowerWatch

/-! ## Signals -/

/-- The time that goes by in an event. -/
def WatchEvent.duration : WatchEvent → Nat
  | .elapse ms => ms
  | _ => 0

/-- What an event signals of the host. -/
def WatchEvent.subscribed? : WatchEvent → Option Bool
  | .subscribed value => some value
  | _ => none

/-- What an event signals of the bus. -/
def WatchEvent.suspended? : WatchEvent → Option Bool
  | .suspended value => some value
  | _ => none

namespace TimedWatch

/-- **What waits after some events**: of each signal the value that was given last, if any was, and otherwise the one
    that waited before. -/
theorem foldl_occur (t : TimedWatch) (events : List WatchEvent) :
    events.foldl occur t = ⟨t.clock + (events.map WatchEvent.duration).sum, { t.watch with
      activity := t.watch.activity || decide (.activity ∈ events)
      subscribed := (events.filterMap WatchEvent.subscribed?).getLast?.or t.watch.subscribed
      suspended := (events.filterMap WatchEvent.suspended?).getLast?.or t.watch.suspended }⟩ := by
  induction events using List.reverseRecOn with
  | nil => simp
  | append_singleton events e ih =>
    rw [List.foldl_append, ih]
    cases e <;> simp [occur, WatchEvent.duration, WatchEvent.subscribed?, WatchEvent.suspended?,
      PowerWatch.signalActivity, PowerWatch.signalSubscribed, PowerWatch.signalSuspended, Nat.add_assoc]

/-! ## Histories -/

/-- A watch whose task runs for the first time at `clock`. -/
def started (clock : Nat) : TimedWatch := ⟨clock, PowerWatch.create clock⟩

/-- Let the events of each list happen one after the other, and poll the watch behind each list. -/
def run (start : Nat) (rounds : List (List WatchEvent)) : TimedWatch :=
  rounds.foldl (fun t events => (t.react events).1) (started start)

@[simp] theorem run_append_singleton (start : Nat) (rounds : List (List WatchEvent)) (events : List WatchEvent) :
    run start (rounds ++ [events]) = ((run start rounds).react events).1 := by
  rw [run, List.foldl_append]
  rfl

/-- The time after some rounds. -/
def timeAfter (start : Nat) (rounds : List (List WatchEvent)) : Nat :=
  start + (rounds.flatten.map WatchEvent.duration).sum

/-- The value that was signalled last, which is `false` before any was. -/
def lastSignalled (signal? : WatchEvent → Option Bool) (rounds : List (List WatchEvent)) : Bool :=
  latest (rounds.flatten.filterMap signal?)

/-- **Uses.** The poll behind `events` takes a use of the device: activity, a host that listens, or a bus that was
    suspended at the poll before and is not any more. -/
def Uses (rounds : List (List WatchEvent)) (events : List WatchEvent) : Prop :=
  .activity ∈ events ∨ (events.filterMap WatchEvent.subscribed?).getLast? = some true
    ∨ (events.filterMap WatchEvent.suspended?).getLast? = some false
      ∧ lastSignalled WatchEvent.suspended? rounds = true

/-- The times at which the device was used: the start of the watch, and every poll that takes a use. -/
def UsedAt (start : Nat) (rounds : List (List WatchEvent)) (time : Nat) : Prop :=
  time = start ∨ ∃ before events after, rounds = before ++ events :: after ∧ Uses before events
    ∧ time = timeAfter start (before ++ [events])

theorem timeAfter_append_singleton (start : Nat) (rounds : List (List WatchEvent)) (events : List WatchEvent) :
    timeAfter start (rounds ++ [events])
      = timeAfter start rounds + (events.map WatchEvent.duration).sum := by
  simp [timeAfter, Nat.add_assoc]

theorem lastSignalled_append_singleton (signal? : WatchEvent → Option Bool) (rounds : List (List WatchEvent))
    (events : List WatchEvent) :
    lastSignalled signal? (rounds ++ [events])
      = (events.filterMap signal?).getLast?.getD (lastSignalled signal? rounds) := by
  simp [lastSignalled, latest, Option.getD_or]

theorem usedAt_append_round {start time : Nat} {rounds : List (List WatchEvent)} {events : List WatchEvent} :
    UsedAt start (rounds ++ [events]) time ↔ UsedAt start rounds time
      ∨ Uses rounds events ∧ time = timeAfter start (rounds ++ [events]) := by
  constructor
  · rintro (hstart | ⟨before, events', after, hrounds, huse, htime⟩)
    · exact .inl (.inl hstart)
    · rcases split_append_singleton hrounds with ⟨rfl, rfl⟩ | ⟨init, hinit⟩
      · exact .inr ⟨huse, htime⟩
      · exact .inl (.inr ⟨before, events', init, hinit, huse, htime⟩)
  · rintro ((hstart | ⟨before, events', after, rfl, huse, htime⟩) | ⟨huse, htime⟩)
    · exact .inl hstart
    · exact .inr ⟨before, events', after ++ [events], by simp, huse, htime⟩
    · exact .inr ⟨rounds, events, [], rfl, huse, htime⟩

/-! ## One round after the other -/

/-- **What a watch knows after `rounds`**, apart from the mode. The next tick is the first full second to come. -/
structure UpToDate (start : Nat) (rounds : List (List WatchEvent)) (t : TimedWatch) : Prop where
  clock : t.clock = timeAfter start rounds
  quiet : t.watch.Quiet
  subscribed : t.watch.monitor.subscribed = lastSignalled WatchEvent.subscribed? rounds
  suspended : t.watch.monitor.suspended = lastSignalled WatchEvent.suspended? rounds
  past : t.watch.monitor.lastActivity ≤ t.clock
  latestUse : IsGreatest {time | UsedAt start rounds time} t.watch.monitor.lastActivity
  nextTick : t.watch.nextTick = start + 1000 * ((t.clock - start) / 1000 + 1)

theorem upToDate_started (start : Nat) : (started start).UpToDate start [] where
  clock := rfl
  quiet := ⟨rfl, rfl, rfl⟩
  subscribed := rfl
  suspended := rfl
  past := Nat.le_refl _
  latestUse := by
    refine ⟨.inl rfl, ?_⟩
    rintro time (rfl | ⟨before, events, after, hrounds, -, -⟩)
    · exact Nat.le_refl _
    · simp at hrounds
  nextTick := by simp [started, PowerWatch.create, Limits.tick]

variable {start : Nat} {rounds : List (List WatchEvent)} {t : TimedWatch}

/-- The watch that is polled after some events, if it was up to date before. -/
def awaiting (t : TimedWatch) (events : List WatchEvent) : PowerWatch where
  monitor := t.watch.monitor
  activity := decide (.activity ∈ events)
  subscribed := (events.filterMap WatchEvent.subscribed?).getLast?
  suspended := (events.filterMap WatchEvent.suspended?).getLast?
  nextTick := t.watch.nextTick

theorem UpToDate.react_eq (h : t.UpToDate start rounds) (events : List WatchEvent) :
    (t.react events).1 = ⟨timeAfter start (rounds ++ [events]),
      ((t.awaiting events).poll (timeAfter start (rounds ++ [events]))).1⟩ := by
  rw [TimedWatch.react, foldl_occur, timeAfter_append_singleton, ← h.clock, h.quiet.activity, h.quiet.subscribed,
    h.quiet.suspended, Bool.false_or, Option.or_none, Option.or_none]
  rfl

theorem UpToDate.useWaits_iff (h : t.UpToDate start rounds) (events : List WatchEvent) :
    (t.awaiting events).UseWaits ↔ Uses rounds events := by
  rw [PowerWatch.UseWaits, Uses, ← h.suspended, awaiting, decide_eq_true_eq]

/-- **A round leaves the watch up to date.** -/
theorem UpToDate.react (h : t.UpToDate start rounds) (events : List WatchEvent) :
    (t.react events).1.UpToDate start (rounds ++ [events]) := by
  obtain ⟨hquiet, hsubscribed, hsuspended, hlast, -⟩ :=
    (t.awaiting events).poll_takes (timeAfter start (rounds ++ [events]))
  have hstart : start ≤ t.clock := h.clock ▸ Nat.le_add_right _ _
  have hlater : t.clock ≤ timeAfter start (rounds ++ [events]) := by
    rw [timeAfter_append_singleton, ← h.clock]
    exact Nat.le_add_right _ _
  rw [h.react_eq]
  refine ⟨rfl, hquiet, ?_, ?_, ?_, ?_, ?_⟩
  · rw [hsubscribed, lastSignalled_append_singleton, ← h.subscribed]
    rfl
  · rw [hsuspended, lastSignalled_append_singleton, ← h.suspended]
    rfl
  · rw [hlast, PowerWatch.latestUse]
    split
    · exact Nat.le_refl _
    · exact Nat.le_trans h.past hlater
  · rw [hlast, PowerWatch.latestUse]
    split
    · next hwaits =>
      -- No use lies ahead of the poll that takes it.
      refine ⟨usedAt_append_round.mpr (.inr ⟨(h.useWaits_iff events).mp hwaits, rfl⟩), ?_⟩
      intro time htime
      rcases usedAt_append_round.mp htime with hbefore | ⟨-, rfl⟩
      · exact Nat.le_trans (h.latestUse.2 hbefore) (Nat.le_trans h.past hlater)
      · exact Nat.le_refl _
    · next hnone =>
      refine ⟨usedAt_append_round.mpr (.inl h.latestUse.1), ?_⟩
      intro time htime
      rcases usedAt_append_round.mp htime with hbefore | ⟨huse, -⟩
      · exact h.latestUse.2 hbefore
      · exact absurd ((h.useWaits_iff events).mpr huse) hnone
  · have hnext : (t.awaiting events).nextTick = start + 1000 * ((t.clock - start) / 1000 + 1) := h.nextTick
    have hsoon : (t.awaiting events).nextTick ≤ timeAfter start (rounds ++ [events]) + Limits.tick := by
      simp only [hnext, Limits.tick]
      omega
    obtain ⟨ticks, hticks, hahead, hnear⟩ := PowerWatch.nextTick_poll hsoon
    simp only [hnext, Limits.tick] at hticks hnear
    dsimp only
    omega

theorem upToDate_run (start : Nat) (rounds : List (List WatchEvent)) :
    (run start rounds).UpToDate start rounds := by
  induction rounds using List.reverseRecOn with
  | nil => exact upToDate_started start
  | append_singleton rounds events ih =>
    rw [run_append_singleton]
    exact ih.react events

/-- The mode after a round in which a full second was reached. -/
theorem UpToDate.mode_react (h : t.UpToDate start rounds) (events : List WatchEvent) {second : Nat}
    (hsince : t.clock < start + 1000 * second)
    (huntil : start + 1000 * second ≤ timeAfter start (rounds ++ [events])) :
    (t.react events).1.watch.monitor.mode
      = (t.react events).1.watch.monitor.dueMode (timeAfter start (rounds ++ [events])) := by
  have hstart : start ≤ t.clock := h.clock ▸ Nat.le_add_right _ _
  obtain ⟨-, -, -, -, hmode⟩ := (t.awaiting events).poll_takes (timeAfter start (rounds ++ [events]))
  rw [h.react_eq]
  apply hmode
  show t.watch.nextTick ≤ _
  rw [h.nextTick]
  omega

/-- **A poll leaves the power watch up to date.** Let the task of the watch run for the first time at `start`, and
    let it be polled behind each list of events; signals may be overwritten, and any time may go by between the
    polls. Then, after any poll:
    - no signal is left to be taken, and the next tick is the first full second to come;
    - the monitor knows the values that were signalled last, `false` for what never was;
    - it knows the latest use, which is its start or a poll that took one: activity, a host that listens, or a
      suspended bus that was resumed;
    - if a full second was reached since the poll before, however many were, the device is in low power if the bus
      is suspended, or if no host listens and the latest use is more than 120 whole seconds ago; otherwise it idles
      if the latest use is more than 60 whole seconds ago, and is active if not. -/
theorem keeps_up_to_date (start : Nat) (rounds : List (List WatchEvent)) (events : List WatchEvent) :
    ∃ t lastUse, t = run start (rounds ++ [events])
      ∧ t.clock = timeAfter start (rounds ++ [events])
      ∧ (t.watch.activity = false ∧ t.watch.subscribed = none ∧ t.watch.suspended = none)
      ∧ t.watch.nextTick = start + 1000 * ((t.clock - start) / 1000 + 1)
      ∧ t.watch.monitor.subscribed = lastSignalled WatchEvent.subscribed? (rounds ++ [events])
      ∧ t.watch.monitor.suspended = lastSignalled WatchEvent.suspended? (rounds ++ [events])
      ∧ t.watch.monitor.lastActivity = lastUse
      ∧ IsGreatest {time | UsedAt start (rounds ++ [events]) time} lastUse
      ∧ ((∃ second, (run start rounds).clock < start + 1000 * second ∧ start + 1000 * second ≤ t.clock) →
          t.watch.monitor.mode =
            if t.watch.monitor.suspended = true
                ∨ (120 < (t.clock - lastUse) / 1000 ∧ t.watch.monitor.subscribed = false) then .lowPower
            else if 60 < (t.clock - lastUse) / 1000 then .idle
            else .active) := by
  have h := upToDate_run start (rounds ++ [events])
  refine ⟨_, _, rfl, h.clock, ⟨h.quiet.activity, h.quiet.subscribed, h.quiet.suspended⟩, h.nextTick, h.subscribed,
    h.suspended, rfl, h.latestUse, ?_⟩
  rintro ⟨second, hsince, huntil⟩
  rw [h.clock] at huntil ⊢
  rw [run_append_singleton, (upToDate_run start rounds).mode_react events hsince huntil]
  rfl

/-- Two minutes and a second without a poll: the device goes to low power with all the ticks of that time, and not
    if a host began to listen before the poll, whatever was signalled in between. -/
example :
    let t := run 0 [[], [.elapse 121000]]
    t.watch.monitor.mode = .lowPower
      ∧ (run 0 [[], [.subscribed true, .subscribed false, .elapse 121000, .subscribed true]]).watch.monitor.mode
        = .active := by
  decide +kernel

end TimedWatch

end Peripheral
