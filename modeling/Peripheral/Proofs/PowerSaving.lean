import Mathlib.Algebra.GroupWithZero.Nat
import Mathlib.Data.List.Induction
import Mathlib.Order.Bounds.Basic
import Peripheral.Power.Timed
import Peripheral.Proofs.History

/-!
# `Peripheral.Proofs.PowerSaving` — power is saved only when nothing uses the device

The mode of the monitor is decided at ticks, and at the call that suspends the bus, while the facts that it was
decided by change at other calls. Some of these wake the device at once; others leave the mode as it is until the
next tick. What makes that safe is that a mode which saves power can only come to have more reasons: time that goes
by adds to them, and every call that takes one away wakes the device.

## Contents
- `MonitorEvent.isUse`, `clock_step`, `lastActivity_step`: what one event does, apart from the mode.
- `TimedMonitor.Justified`, `Justified.step`: a mode that saves power has its reasons, and keeps them.
- `TimedMonitor.run`, `UsedAt`: histories, and the uses of the device in them.
- `saves_power_only_unused`: the reasons in terms of the history alone.
-/

namespace Peripheral

/-! ## Events seen from outside -/

/-- The time that goes by in an event. -/
def MonitorEvent.duration : MonitorEvent → Nat
  | .elapse ms => ms
  | _ => 0

/-- What an event tells of the host. -/
def MonitorEvent.subscribed? : MonitorEvent → Option Bool
  | .subscribed value => some value
  | _ => none

/-- What an event tells of the bus. -/
def MonitorEvent.suspended? : MonitorEvent → Option Bool
  | .suspended value => some value
  | _ => none

/-- The device is used: there is activity, a host starts to listen, or a bus that was suspended is resumed. -/
def MonitorEvent.isUse (suspended : Bool) : MonitorEvent → Bool
  | .activity => true
  | .subscribed value => value
  | .suspended value => suspended && !value
  | .elapse _ | .tick => false

namespace TimedMonitor

variable {t : TimedMonitor} {e : MonitorEvent}

/-! ## One event -/

theorem clock_step (t : TimedMonitor) (e : MonitorEvent) : (t.step e).1.clock = t.clock + e.duration := by
  cases e <;> rfl

theorem subscribed_step (t : TimedMonitor) (e : MonitorEvent) :
    (t.step e).1.monitor.subscribed = e.subscribed?.getD t.monitor.subscribed := by
  cases e with
  | subscribed value => cases value <;> rfl
  | suspended value =>
    show (t.monitor.setSuspended value t.clock).1.subscribed = t.monitor.subscribed
    unfold PowerMonitor.setSuspended
    split
    · rfl
    · cases value <;> rfl
  | _ => rfl

theorem suspended_step (t : TimedMonitor) (e : MonitorEvent) :
    (t.step e).1.monitor.suspended = e.suspended?.getD t.monitor.suspended := by
  cases e with
  | subscribed value => cases value <;> rfl
  | suspended value =>
    show (t.monitor.setSuspended value t.clock).1.suspended = value
    unfold PowerMonitor.setSuspended
    split
    · assumption
    · cases value <;> rfl
  | _ => rfl

/-- The monitor keeps the time of the latest use. -/
theorem lastActivity_step (t : TimedMonitor) (e : MonitorEvent) :
    (t.step e).1.monitor.lastActivity
      = if e.isUse t.monitor.suspended then t.clock else t.monitor.lastActivity := by
  cases e with
  | subscribed value => cases value <;> rfl
  | suspended value =>
    show (t.monitor.setSuspended value t.clock).1.lastActivity = _
    unfold PowerMonitor.setSuspended MonitorEvent.isUse
    cases value <;> cases t.monitor.suspended <;> rfl
  | _ => rfl

/-! ## Reasons to save power -/

/-- The mode of the monitor has its reasons at its time: it idles with the bus at work and nothing done for more
    than the idle time; it is in low power with the bus suspended, or without a host and nothing done for more than
    twice that time. -/
structure Justified (t : TimedMonitor) : Prop where
  idle : t.monitor.mode = .idle →
    t.monitor.suspended = false ∧ Limits.idleSeconds < t.monitor.quietSeconds t.clock
  lowPower : t.monitor.mode = .lowPower →
    t.monitor.suspended = true
      ∨ t.monitor.subscribed = false ∧ 2 * Limits.idleSeconds < t.monitor.quietSeconds t.clock

theorem Justified.of_active (h : t.monitor.mode = .active) : t.Justified where
  idle hidle := by rw [h] at hidle; cases hidle
  lowPower hlow := by rw [h] at hlow; cases hlow

/-- The mode that is due has its reasons. -/
theorem Justified.of_due (h : t.monitor.mode = t.monitor.dueMode t.clock) : t.Justified where
  idle hidle := by
    rw [h, PowerMonitor.dueMode] at hidle
    split at hidle
    · cases hidle
    · next hnotlow =>
      split at hidle
      · next hquiet => exact ⟨Bool.eq_false_iff.mpr fun hs => hnotlow (.inl hs), hquiet⟩
      · cases hidle
  lowPower hlow := by
    rw [h, PowerMonitor.dueMode] at hlow
    split at hlow
    · next hreason => exact hreason.imp_right And.symm
    · split at hlow <;> cases hlow

/-- Time that goes by makes no reason weaker. -/
theorem Justified.elapse (h : t.Justified) (ms : Nat) : Justified { t with clock := t.clock + ms } := by
  have hlonger : t.monitor.quietSeconds t.clock ≤ t.monitor.quietSeconds (t.clock + ms) := by
    unfold PowerMonitor.quietSeconds
    omega
  refine ⟨?_, ?_⟩
  · intro hidle
    exact ⟨(h.idle hidle).1, Nat.lt_of_lt_of_le (h.idle hidle).2 hlonger⟩
  · intro hlow
    exact (h.lowPower hlow).imp_right fun hunused => ⟨hunused.1, Nat.lt_of_lt_of_le hunused.2 hlonger⟩

/-- **Every event leaves the mode with its reasons.** -/
theorem Justified.step (h : t.Justified) (e : MonitorEvent) : (t.step e).1.Justified := by
  cases e with
  | elapse ms => exact h.elapse ms
  | activity => exact .of_active rfl
  | tick => exact .of_due rfl
  | subscribed value =>
    cases value with
    | true => exact .of_active rfl
    | false =>
      -- A host that stops to listen is no reason less.
      refine ⟨h.idle, ?_⟩
      intro hlow
      exact (h.lowPower hlow).imp_right fun hunused => ⟨rfl, hunused.2⟩
  | suspended value =>
    by_cases hsame : t.monitor.suspended = value
    · have hstays : (t.step (.suspended value)).1 = t := by
        simp only [TimedMonitor.step, PowerMonitor.setSuspended, if_pos hsame, TimedMonitor.after]
      rwa [hstays]
    · cases value with
      | true =>
        apply Justified.of_due
        simp only [TimedMonitor.step, PowerMonitor.setSuspended, if_neg hsame, TimedMonitor.after]
        rfl
      | false =>
        apply Justified.of_active
        simp only [TimedMonitor.step, PowerMonitor.setSuspended, if_neg hsame, TimedMonitor.after]
        rfl

/-! ## Histories -/

/-- A monitor that is created at `clock`. -/
def created (clock : Nat) : TimedMonitor := ⟨clock, PowerMonitor.create clock⟩

/-- Let events happen one after the other. -/
def run (t : TimedMonitor) (events : List MonitorEvent) : TimedMonitor :=
  events.foldl (fun t e => (t.step e).1) t

@[simp] theorem run_append_singleton (t : TimedMonitor) (events : List MonitorEvent) (e : MonitorEvent) :
    t.run (events ++ [e]) = ((t.run events).step e).1 := by
  rw [run, List.foldl_append]
  rfl

/-- The time after some events is the time that went by in them. -/
theorem clock_run (t : TimedMonitor) (events : List MonitorEvent) :
    (t.run events).clock = t.clock + (events.map MonitorEvent.duration).sum := by
  induction events using List.reverseRecOn with
  | nil => rfl
  | append_singleton events e ih =>
    rw [run_append_singleton, clock_step, ih, List.map_append, List.sum_append]
    simp [Nat.add_assoc]

/-- What was told last, if anything was told. -/
def lastTold (told? : MonitorEvent → Option Bool) (events : List MonitorEvent) : Bool :=
  (events.filterMap told?).getLast?.getD false

theorem lastTold_append_singleton (told? : MonitorEvent → Option Bool) (events : List MonitorEvent)
    (e : MonitorEvent) : lastTold told? (events ++ [e]) = (told? e).getD (lastTold told? events) := by
  unfold lastTold
  rw [List.filterMap_append]
  cases h : told? e with
  | none => simp [h]
  | some value => simp [h]

theorem subscribed_run (start : Nat) (events : List MonitorEvent) :
    ((created start).run events).monitor.subscribed = lastTold MonitorEvent.subscribed? events := by
  induction events using List.reverseRecOn with
  | nil => rfl
  | append_singleton events e ih => rw [run_append_singleton, subscribed_step, ih, lastTold_append_singleton]

theorem suspended_run (start : Nat) (events : List MonitorEvent) :
    ((created start).run events).monitor.suspended = lastTold MonitorEvent.suspended? events := by
  induction events using List.reverseRecOn with
  | nil => rfl
  | append_singleton events e ih => rw [run_append_singleton, suspended_step, ih, lastTold_append_singleton]

theorem justified_run (start : Nat) (events : List MonitorEvent) : ((created start).run events).Justified := by
  induction events using List.reverseRecOn with
  | nil => exact .of_active rfl
  | append_singleton events e ih =>
    rw [run_append_singleton]
    exact ih.step e

/-! ## Uses of the device -/

/-- The times at which the device was used: its start, and every event that is a use. -/
def UsedAt (start : Nat) (events : List MonitorEvent) (time : Nat) : Prop :=
  time = start ∨ ∃ before e after, events = before ++ e :: after
    ∧ e.isUse (lastTold MonitorEvent.suspended? before) = true
    ∧ time = start + (before.map MonitorEvent.duration).sum

theorem usedAt_append_singleton {start time : Nat} {events : List MonitorEvent} :
    UsedAt start (events ++ [e]) time ↔ UsedAt start events time
      ∨ e.isUse (lastTold MonitorEvent.suspended? events) = true
        ∧ time = start + (events.map MonitorEvent.duration).sum := by
  constructor
  · rintro (hstart | ⟨before, e', after, hevents, huse, htime⟩)
    · exact .inl (.inl hstart)
    · rcases split_append_singleton hevents with ⟨rfl, rfl⟩ | ⟨init, hinit⟩
      · exact .inr ⟨huse, htime⟩
      · exact .inl (.inr ⟨before, e', init, hinit, huse, htime⟩)
  · rintro ((hstart | ⟨before, e', after, rfl, huse, htime⟩) | ⟨huse, htime⟩)
    · exact .inl hstart
    · exact .inr ⟨before, e', after ++ [e], by simp, huse, htime⟩
    · exact .inr ⟨events, e, [], rfl, huse, htime⟩

/-- **The monitor knows when the device was used last.** -/
theorem isGreatest_lastActivity (start : Nat) (events : List MonitorEvent) :
    IsGreatest {time | UsedAt start events time} ((created start).run events).monitor.lastActivity := by
  induction events using List.reverseRecOn with
  | nil =>
    refine ⟨.inl rfl, ?_⟩
    rintro time (rfl | ⟨before, e, after, hevents, -, -⟩)
    · exact Nat.le_refl _
    · simp at hevents
  | append_singleton events e ih =>
    have hnow : ((created start).run events).clock = start + (events.map MonitorEvent.duration).sum :=
      clock_run _ _
    rw [run_append_singleton, lastActivity_step, suspended_run, hnow]
    split
    · next huse =>
      refine ⟨usedAt_append_singleton.mpr (.inr ⟨huse, rfl⟩), ?_⟩
      -- No use lies ahead of the time that it took place at.
      rintro time (rfl | ⟨before, e', after, hevents, -, rfl⟩)
      · exact Nat.le_add_right _ _
      · have hprefix : before <+: events := by
          rcases split_append_singleton hevents with ⟨rfl, -⟩ | ⟨init, rfl⟩
          · exact List.prefix_refl _
          · exact List.prefix_append _ _
        obtain ⟨rest, rfl⟩ := hprefix
        rw [List.map_append, List.sum_append]
        omega
    · next hother =>
      refine ⟨usedAt_append_singleton.mpr (.inl ih.1), ?_⟩
      intro time htime
      rcases usedAt_append_singleton.mp htime with hbefore | ⟨huse, -⟩
      · exact ih.2 hbefore
      · exact absurd huse hother

/-- **Power is saved only when nothing uses the device.** Let a monitor be created at the time `start`, and let
    any events happen one after the other, with any time between them. Its clock then shows the time that went by,
    what it knows of host and bus is what was told last, and there is a latest use: the latest of its creation,
    activity, a host that starts to listen and a suspended bus that is resumed. If the device idles, the bus is at
    work, and the latest use is more than 60 whole seconds ago. If it is in low power, the bus is suspended, or no
    host listens and the latest use is more than 120 whole seconds ago. -/
theorem saves_power_only_unused (start : Nat) (events : List MonitorEvent) :
    ∃ t lastUse, t = (created start).run events
      ∧ t.clock = start + (events.map MonitorEvent.duration).sum
      ∧ t.monitor.subscribed = lastTold MonitorEvent.subscribed? events
      ∧ t.monitor.suspended = lastTold MonitorEvent.suspended? events
      ∧ IsGreatest {time | UsedAt start events time} lastUse
      ∧ (t.monitor.mode = .idle → t.monitor.suspended = false ∧ 60 < (t.clock - lastUse) / 1000)
      ∧ (t.monitor.mode = .lowPower →
          t.monitor.suspended = true ∨ t.monitor.subscribed = false ∧ 120 < (t.clock - lastUse) / 1000) :=
  ⟨_, _, rfl, clock_run _ _, subscribed_run _ _, suspended_run _ _, isGreatest_lastActivity start events,
    (justified_run start events).idle, (justified_run start events).lowPower⟩

/-- A device that nobody uses idles at the first tick after a minute, and the bus that is suspended then brings it to
    low power without a tick. -/
example :
    let t := (created 0).run [.subscribed true, .elapse 61000, .tick]
    t.monitor.mode = .idle ∧ (t.run [.suspended true]).monitor.mode = .lowPower := ⟨rfl, rfl⟩

end TimedMonitor

end Peripheral
