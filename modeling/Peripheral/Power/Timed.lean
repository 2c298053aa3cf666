import Peripheral.Power.Watch

/-!
# `Peripheral.Power.Timed` — monitor and watch beside a clock of their own

A history of the power management is a list of events, among which the clock moves on. The monitor
is called directly; the watch is given signals, and polled when its task comes round.

## Contents
- `MonitorEvent`, `TimedMonitor.step`: a monitor called from time to time.
- `WatchEvent`, `TimedWatch.occur`, `TimedWatch.react`: a watch signalled and then polled.
-/

namespace Peripheral

/-! ## A monitor beside a clock -/

/-- A call of the monitor, or time that goes by. -/
inductive MonitorEvent
  | elapse (ms : Nat)
  | activity
  | subscribed (value : Bool)
  | suspended (value : Bool)
  | tick
  deriving DecidableEq, Repr

/-- A monitor and the time. -/
structure TimedMonitor where
  clock : Nat
  monitor : PowerMonitor
  deriving DecidableEq, Repr

namespace TimedMonitor

/-- A monitor created at time 0. -/
def initial : TimedMonitor := ⟨0, PowerMonitor.create 0⟩

/-- The result of a call put beside the clock. -/
def after (t : TimedMonitor) (result : PowerMonitor × List PowerNotice) :
    TimedMonitor × List PowerNotice :=
  ({ t with monitor := result.1 }, result.2)

/-- One event, with what is logged at it. -/
def step (t : TimedMonitor) (event : MonitorEvent) : TimedMonitor × List PowerNotice :=
  match event with
  | .elapse ms => ({ t with clock := t.clock + ms }, [])
  | .activity => t.after (t.monitor.activity t.clock)
  | .subscribed value => t.after (t.monitor.setSubscribed value t.clock)
  | .suspended value => t.after (t.monitor.setSuspended value t.clock)
  | .tick => t.after (t.monitor.tick t.clock)

end TimedMonitor

/-! ## A watch beside a clock -/

/-- A signal to the watch, or time that goes by. -/
inductive WatchEvent
  | elapse (ms : Nat)
  | activity
  | subscribed (value : Bool)
  | suspended (value : Bool)
  deriving DecidableEq, Repr

/-- A watch and the time. -/
structure TimedWatch where
  clock : Nat
  watch : PowerWatch
  deriving DecidableEq, Repr

namespace TimedWatch

/-- A watch started at time 0. -/
def initial : TimedWatch := ⟨0, PowerWatch.create 0⟩

/-- One event. The watch takes no notice of it before it is polled. -/
def occur (t : TimedWatch) : WatchEvent → TimedWatch
  | .elapse ms => { t with clock := t.clock + ms }
  | .activity => { t with watch := t.watch.signalActivity }
  | .subscribed value => { t with watch := t.watch.signalSubscribed value }
  | .suspended value => { t with watch := t.watch.signalSuspended value }

/-- Let the watch take everything that is there. -/
def poll (t : TimedWatch) : TimedWatch × List PowerNotice :=
  ({ t with watch := (t.watch.poll t.clock).1 }, (t.watch.poll t.clock).2)

/-- Let events happen one after the other, and then poll the watch. -/
def react (t : TimedWatch) (events : List WatchEvent) : TimedWatch × List PowerNotice :=
  (events.foldl occur t).poll

end TimedWatch

end Peripheral
