import Peripheral.Backlog.Lemmas
import Peripheral.Firmware.Schedule

/-!
# `Peripheral.Firmware.Load` — what the aggregator makes of an input

An input is worth a number of steps, and so is what the aggregator makes of it: reports and
activity, updates that wait and motion that waits. Each move of the aggregator hands on no more than
it takes.

## Contents
- `outputLoad`, `outputsLoad`, `motionLoad`, `handlingLoad`: what things are worth.
- `report_load`, `drain_load`, `update_load`, `connect_load`, `delivered_load`: what moves cost.
- `load_of_step`: inputs are worth what the aggregator makes of them, and their handling.
-/

namespace Peripheral.Firmware

open World

/-! ## What outputs are worth -/

/-- Steps that an output can cause. -/
def outputLoad : Output → Nat
  | .report _ => 4
  | .activity => 1

/-- Steps that a list of outputs can cause. -/
def outputsLoad : List Output → Nat
  | [] => 0
  | o :: rest => outputLoad o + outputsLoad rest

@[simp] theorem outputsLoad_nil : outputsLoad [] = 0 := rfl

@[simp] theorem outputsLoad_append (o p : List Output) :
    outputsLoad (o ++ p) = outputsLoad o + outputsLoad p := by
  induction o with
  | nil => simp
  | cons x rest ih =>
    simp only [List.cons_append, outputsLoad, ih]
    omega

@[simp] theorem outputsLoad_reports (rs : List Report) :
    outputsLoad (rs.map Output.report) = 4 * rs.length := by
  induction rs with
  | nil => rfl
  | cons r rest ih =>
    simp only [List.map_cons, outputsLoad, ih, outputLoad, List.length_cons]
    omega

/-- Steps that motion can cause by itself. -/
def motionLoad (m : Motion) : Nat := if m.isPending then 9 else 0

theorem motionLoad_le (m : Motion) : motionLoad m ≤ 9 := by
  unfold motionLoad
  split <;> omega

theorem aggregatorLoad_eq (a : Aggregator) :
    aggregatorLoad a
      = 13 * a.backlog.size + motionLoad a.pipeline.motion + (if a.started then 0 else 1) := rfl

/-! ## What moves cost -/

/-- A mouse report carries all motion away, and comes with one more at most. -/
theorem submitMouse_bound {p p' : Pipeline} {tables : PerTarget HoldTable} {rs : List Report}
    (h : p.submitMouse tables = .ok (p', rs)) : rs.length ≤ 2 ∧ p'.motion = .zero := by
  have hsend : ∀ {q q' : Pipeline} {r : Report}, q.sendMouse tables = .ok (q', r) →
      q'.motion = .zero := by
    intro q q' r hq
    obtain ⟨_, _, hq⟩ := Fault.bind_eq_ok.mp hq
    cases hq
    rfl
  obtain ⟨⟨q, r⟩, hq, h⟩ := Fault.bind_eq_ok.mp h
  dsimp only at h
  split at h
  · obtain ⟨⟨q', s⟩, hq', h⟩ := Fault.bind_eq_ok.mp h
    cases h
    exact ⟨Nat.le_refl 2, hsend hq'⟩
  · cases h
    exact ⟨by simp, hsend hq⟩

/-- At most three reports are submitted together, and motion either waits on or is gone. -/
theorem submit_bound {p p' : Pipeline} {tables : PerTarget HoldTable} {t : Target}
    {rs : List Report} (h : p.submit tables t = .ok (p', rs)) :
    rs.length ≤ 3 ∧ (p'.motion = p.motion ∨ p'.motion = .zero) := by
  cases t with
  | keyboard =>
    obtain ⟨⟨q, r⟩, hq, h⟩ := Fault.bind_eq_ok.mp h
    obtain ⟨k, hk, hq⟩ := Fault.bind_eq_ok.mp hq
    cases hq
    dsimp only at h
    split at h
    · obtain ⟨⟨q', s⟩, hq', h⟩ := Fault.bind_eq_ok.mp h
      cases h
      obtain ⟨hlen, hmotion⟩ := submitMouse_bound hq'
      exact ⟨Nat.succ_le_succ hlen, .inr hmotion⟩
    · cases h
      exact ⟨by simp, .inl rfl⟩
  | mouse =>
    obtain ⟨hlen, hmotion⟩ := submitMouse_bound h
    exact ⟨by omega, .inr hmotion⟩
  | media => cases h

theorem motionLoad_zero : motionLoad .zero = 0 := rfl

/-- A report costs at most three messages. -/
theorem report_load {a a' : Aggregator} {t : Target} {out : List Output}
    (h : a.report t = .ok (a', out)) :
    aggregatorLoad a' + outputsLoad out ≤ aggregatorLoad a + 12 := by
  obtain ⟨⟨p, rs⟩, hp, h⟩ := Fault.bind_eq_ok.mp h
  cases h
  obtain ⟨hlen, hmotion⟩ := submit_bound hp
  have hle : motionLoad p.motion ≤ motionLoad a.pipeline.motion := by
    rcases hmotion with h | h
    · exact Nat.le_of_eq (congrArg motionLoad h)
    · simp [h, motionLoad_zero]
  simp only [aggregatorLoad_eq, outputsLoad_reports]
  omega

/-- A mouse report costs at most two messages, and no motion is left. -/
theorem report_mouse_load {a a' : Aggregator} {out : List Output}
    (h : a.report .mouse = .ok (a', out)) :
    aggregatorLoad a' + outputsLoad out
      ≤ 13 * a.backlog.size + (if a.started then 0 else 1) + 8 := by
  obtain ⟨⟨p, rs⟩, hp, h⟩ := Fault.bind_eq_ok.mp h
  cases h
  obtain ⟨hlen, hmotion⟩ := submitMouse_bound hp
  simp only [aggregatorLoad_eq, outputsLoad_reports, hmotion, motionLoad_zero]
  omega

/-- Applying an update touches only a table and the losses. -/
theorem apply_load {a a' : Aggregator} {t : Target} {usage : UInt16} {change : Int16} {due : Bool}
    (h : a.apply t usage change = .ok (a', due)) :
    a'.backlog = a.backlog ∧ aggregatorLoad a' = aggregatorLoad a := by
  obtain ⟨⟨table, effect⟩, _, h⟩ := Fault.bind_eq_ok.mp h
  cases effect <;> (cases h; exact ⟨rfl, rfl⟩)

/-- What waits pays for the reports that it causes. -/
theorem drainFrom_load {a a' : Aggregator} {l : List Pending} {out : List Output}
    (h : a.drainFrom l = .ok (a', out)) :
    aggregatorLoad a' + outputsLoad out
      ≤ 13 * l.length + motionLoad a.pipeline.motion + (if a.started then 0 else 1) := by
  induction l generalizing a with
  | nil =>
    unfold Aggregator.drainFrom at h
    dsimp only at h
    split at h
    · rename_i hpending
      have := report_mouse_load h
      have hmotion : motionLoad a.pipeline.motion = 9 := if_pos hpending
      simp only [Backlog.clear, Backlog.size, List.length_nil] at this ⊢
      omega
    · cases h
      simp only [aggregatorLoad_eq, Backlog.clear, Backlog.size, List.length_nil, outputsLoad_nil]
      omega
  | cons e rest ih =>
    unfold Aggregator.drainFrom at h
    obtain ⟨⟨b, due⟩, hb, h⟩ := Fault.bind_eq_ok.mp h
    obtain ⟨hbacklog, hload⟩ := apply_load hb
    have hlen : (e :: rest).length = rest.length + 1 := rfl
    have hsize : b.backlog.size = rest.length := by rw [hbacklog]; rfl
    have hparts : motionLoad b.pipeline.motion + (if b.started then 0 else 1)
        = motionLoad a.pipeline.motion + (if a.started then 0 else 1) := by
      rw [aggregatorLoad_eq, aggregatorLoad_eq, hbacklog] at hload
      dsimp only at hload
      omega
    dsimp only at h
    split at h
    · have := report_load h
      rw [aggregatorLoad_eq b] at this
      omega
    · have := ih h
      omega

theorem drain_load {a a' : Aggregator} {out : List Output} (h : a.drain = .ok (a', out)) :
    aggregatorLoad a' + outputsLoad out ≤ aggregatorLoad a := by
  have := drainFrom_load h
  rw [aggregatorLoad_eq]
  exact this

theorem defer_load (a : Aggregator) (e : Pending) :
    aggregatorLoad (a.defer e) ≤ aggregatorLoad a + 13 := by
  have := a.backlog.size_store_le e (a.phase = .disconnected)
  simp only [aggregatorLoad_eq, Aggregator.defer]
  omega

theorem update_load {a a' : Aggregator} {e : Pending} {out : List Output}
    (h : a.update e = .ok (a', out)) :
    aggregatorLoad a' + outputsLoad out ≤ aggregatorLoad a + 13 := by
  have hdefer := defer_load a e
  unfold Aggregator.update at h
  split at h
  · obtain ⟨⟨b, due⟩, hb, h⟩ := Fault.bind_eq_ok.mp h
    obtain ⟨_, hload⟩ := apply_load hb
    dsimp only at h
    split at h
    · have := report_load h
      omega
    · cases h
      simp only [outputsLoad_nil]
      omega
  · cases h
    simpa using hdefer
  · cases h
    simpa using hdefer

theorem reportMotion_load {a a' : Aggregator} {out : List Output}
    (h : a.reportMotion = .ok (a', out)) :
    aggregatorLoad a' + outputsLoad out
      ≤ 13 * a.backlog.size + (if a.started then 0 else 1) + 9 := by
  have hmotion := motionLoad_le a.pipeline.motion
  unfold Aggregator.reportMotion at h
  split at h
  · have := report_mouse_load h
    omega
  · cases h
    simp only [aggregatorLoad_eq, outputsLoad_nil]
    omega
  · cases h
    simp only [aggregatorLoad_eq, outputsLoad_nil]
    omega

theorem connect_load {a a' : Aggregator} {now : UInt32} {out : List Output}
    (h : a.connect now = .ok (a', out)) :
    aggregatorLoad a' + outputsLoad out ≤ aggregatorLoad a := by
  unfold Aggregator.connect at h
  split at h
  · have := drain_load h
    have hpurge := a.backlog.size_purge now
    simp only [aggregatorLoad_eq a] at this ⊢
    simp only [aggregatorLoad_eq, Pipeline.forgetMotion, motionLoad_zero] at this ⊢
    omega
  · cases h
    simp

theorem disconnect_load (a : Aggregator) : aggregatorLoad a.disconnect ≤ aggregatorLoad a := by
  unfold Aggregator.disconnect
  split
  · exact Nat.le_refl _
  · simp only [aggregatorLoad_eq, Backlog.clear, Backlog.size, List.length_nil,
      Pipeline.forgetInFlight]
    omega

theorem acknowledged_load (a : Aggregator) (t : Target) :
    aggregatorLoad { a with pipeline := (a.pipeline.acknowledge? t).getD a.pipeline }
      = aggregatorLoad a := by
  unfold Pipeline.acknowledge?
  split <;> rfl

theorem delivered_load {a a' : Aggregator} {t : Target} {out : List Output}
    (h : a.delivered t = .ok (a', out)) :
    aggregatorLoad a' + outputsLoad out ≤ aggregatorLoad a := by
  unfold Aggregator.delivered at h
  split at h
  · cases h
    simp
  · obtain ⟨⟨b, o⟩, hb, h⟩ := Fault.bind_eq_ok.mp h
    cases h
    rw [acknowledged_load]
    unfold Aggregator.resume at hb
    split at hb
    · cases hb
      simp
    · exact drain_load hb

/-- The announcement that the device is ready is spent by being made. -/
theorem start_load {a a' : Aggregator} (h : a.start = .ok a') :
    aggregatorLoad a' < aggregatorLoad a ∧ a.started = false := by
  unfold Aggregator.start at h
  split at h
  · cases h
  · rename_i hs
    cases h
    have hs : a.started = false := by simpa using hs
    refine ⟨?_, hs⟩
    simp only [aggregatorLoad_eq, Backlog.clear, Backlog.size, List.length_nil, hs]
    simp only [Bool.false_eq_true, if_true, if_false]
    omega

/-- Steps that the handling of an input is itself: one, and one more of the power watch for news of
    the link. -/
def handlingLoad : Input → Nat
  | .link _ => 2
  | _ => 1

theorem handlingLoad_le (input : Input) : handlingLoad input ≤ inputLoad input := by
  cases input <;> simp [handlingLoad, inputLoad]

/-- Inputs are worth what the aggregator makes of them and their handling. -/
theorem load_of_step {a a' : Aggregator} {input : Input} {now : UInt32} {out : List Output}
    (h : a.step input now = .ok (a', out)) :
    aggregatorLoad a' + outputsLoad out + handlingLoad input
      ≤ aggregatorLoad a + inputLoad input := by
  have hactivity : outputsLoad [.activity] = 1 := rfl
  cases input with
  | key k pressed =>
    simp only [Aggregator.step, Aggregator.key] at h
    split at h
    · cases h
      simp only [aggregatorLoad_eq, outputsLoad_nil, inputLoad, handlingLoad]
      omega
    · obtain ⟨⟨b, o⟩, hb, h⟩ := Fault.bind_eq_ok.mp h
      cases h
      have := update_load hb
      simp only [outputsLoad_append, hactivity, inputLoad, handlingLoad]
      omega
  | motion dx dy =>
    obtain ⟨⟨b, o⟩, hb, h⟩ := Fault.bind_eq_ok.mp h
    cases h
    have := reportMotion_load hb
    simp only [outputsLoad_append, hactivity, inputLoad, handlingLoad, aggregatorLoad_eq a]
      at this ⊢
    omega
  | wheel amount =>
    obtain ⟨⟨b, o⟩, hb, h⟩ := Fault.bind_eq_ok.mp h
    cases h
    have := reportMotion_load hb
    simp only [outputsLoad_append, hactivity, inputLoad, handlingLoad, aggregatorLoad_eq a]
      at this ⊢
    omega
  | delivered t =>
    have := delivered_load h
    simp only [inputLoad, handlingLoad]
    omega
  | link up =>
    cases up with
    | true =>
      have := connect_load h
      simp only [inputLoad, handlingLoad]
      omega
    | false =>
      cases h
      have := disconnect_load a
      simp only [outputsLoad_nil, inputLoad, handlingLoad]
      omega
  | ready =>
    obtain ⟨b, hb, h⟩ := Fault.bind_eq_ok.mp h
    cases h
    have := (start_load hb).1
    simp only [outputsLoad_nil, inputLoad, handlingLoad]
    omega

end Peripheral.Firmware
