import Peripheral.Proofs.Phases

/-!
# `Peripheral.Proofs.Pairing` — what is dropped while no host listens

Without a host updates only wait, and old ones are dropped to make room: first by the clock, and then by
a clock that runs ahead. What is left has to tell a host that comes the same as all the updates since
the backlog was last empty would have told it.

## Contents
- `Turn.forgets`, `openUpdates`: the updates since everything was last forgotten.
- `History.replay_openUpdates`: the backlog comes to the same as they do.
-/

namespace Peripheral

/-- The turn forgot what waited: the device got ready, or its host went away. -/
def Turn.forgets (t : Turn) : Bool :=
  t.input = .ready || (t.input = .link false && t.before.phase ≠ .disconnected)

/-- The updates that count after a turn: none if it forgot them, its own only if it gave up the others
    for it, and its own behind the others if it did neither. -/
def Turn.extend (waiting : List Pending) (t : Turn) : List Pending :=
  if t.forgets then []
  else if t.resets then t.update?.toList
  else waiting ++ t.update?.toList

/-- The updates of a history since what waited was last forgotten or given up. Nothing is ever dropped
    from this list for its age. -/
def openUpdates (turns : List Turn) : List Pending := turns.foldl Turn.extend []

@[simp] theorem openUpdates_append_singleton (turns : List Turn) (t : Turn) :
    openUpdates (turns ++ [t]) = t.extend (openUpdates turns) := by
  rw [openUpdates, List.foldl_append]
  rfl

open Aggregator

variable {layout : Layout} {window : UInt32} {turns : List Turn} {a b : Aggregator}

/-- A turn that neither forgets nor asks for an update leaves the open updates as they are. -/
theorem Turn.extend_eq_self {t : Turn} (hforget : t.forgets = false) (hnone : t.update? = none)
    (waiting : List Pending) : t.extend waiting = waiting := by
  simp [Turn.extend, Turn.resets_of_update?_eq_none hnone, hforget, hnone]

/-- A turn that puts its update off adds it to the open updates, or leaves it as the only one. -/
theorem Turn.extend_deferred {t : Turn} {e : Pending} (hforget : t.forgets = false)
    (he : t.update? = some e) (hbusy : t.before.phase ≠ .idle) (waiting : List Pending) :
    t.extend waiting = if t.before.resets e then [e] else waiting ++ [e] := by
  simp [Turn.extend, Turn.resets_of_update?_eq_some he hbusy, hforget, he]

/-- Motion leaves the open updates as they are. -/
theorem Turn.extend_of_isMotion {t : Turn} (h : t.input.isMotion = true) (waiting : List Pending) :
    t.extend waiting = waiting := by
  refine Turn.extend_eq_self ?_ (Layout.updateOf?_of_isMotion _ h t.now) waiting
  unfold Turn.forgets
  cases hinput : t.input <;> rw [hinput] at h <;> first | rfl | cases h

/-- Putting an update off does to the backlog what it does to the open updates. -/
theorem replay_defers {e : Pending} {reset : Bool} (hdefer : a.Defers e reset b)
    {waiting : List Pending} {t : Target} {u : UInt16}
    (hwaiting : replay t u 0 waiting = replay t u 0 a.backlog.pending) :
    replay t u 0 (if reset then [e] else waiting ++ [e]) = replay t u 0 b.backlog.pending := by
  cases hdefer with
  | kept hroom hsame hpurge =>
    -- What made room came to nothing, counted from nothing.
    rw [if_neg Bool.false_ne_true, replay_append, replay_append, hsame t u, hwaiting]
  | reset hnone => rw [if_pos rfl]

/-- Without a host, every turn keeps the backlog and the open updates at the same levels. -/
theorem replay_extend (hsound : a.Sound) {input : Input} {now : UInt32} {out : List Output}
    (hstep : a.step input now = .ok (b, out)) (hdown : b.phase = .disconnected)
    {waiting : List Pending} {t : Target} {u : UInt16}
    (hwaiting : a.phase = .disconnected → replay t u 0 waiting = replay t u 0 a.backlog.pending) :
    replay t u 0 (Turn.extend waiting ⟨a, input, now, b, out⟩) = replay t u 0 b.backlog.pending := by
  cases outcome_of_step hstep with
  | @unbound key pressed _ hkey =>
    rw [Turn.extend_eq_self (t := ⟨a, .key key pressed, now, _, []⟩) rfl
      (Layout.updateOf?_of_lookup hkey pressed now)]
    exact hwaiting hdown
  | ignored he hidle => exact absurd (hidle.symm.trans hdown) (by decide)
  | applied | moved => cases hdown
  | @deferred key pressed _ e he hnotidle =>
    have hdefer := hsound.defers_defer e
    rw [Turn.extend_deferred (t := ⟨a, .key key pressed, now, a.defer e, [.activity]⟩) rfl he hnotidle]
    refine replay_defers hdefer (hwaiting ?_)
    rwa [hdefer.phase_eq] at hdown
  | moving hmotion hnotidle =>
    have hsame : ∀ c said, Turn.extend waiting ⟨a, input, now, c, said⟩ = waiting := by
      intro c said
      exact Turn.extend_of_isMotion hmotion waiting
    rw [hsame]
    exact hwaiting hdown
  | stray | late =>
    rw [Turn.extend_eq_self rfl rfl]
    exact hwaiting hdown
  | delivered hsome hup hdrain | connected hup hdrain =>
    -- Going on ends in a phase with a host.
    rcases hdrain.phase with ⟨hphase, _⟩ | ⟨hphase, _⟩
    · exact absurd (hphase.symm.trans hdown) (by decide)
    · exact absurd (hphase.symm.trans hdown) (by decide)
  | unmoved hsame =>
    obtain rfl := hsame.mp hdown
    rw [Turn.extend_eq_self (by simp [Turn.forgets, hdown]) rfl]
    exact hwaiting hdown
  | disconnected hup =>
    -- Both sides start anew.
    rw [Aggregator.disconnect, if_neg hup, Turn.extend, if_pos (by simp [Turn.forgets, hup])]
    rfl
  | started => rfl

/-- **Nothing is lost by waiting.** While no host listens, the updates in the backlog come to the same
    level of every usage as all the updates since what waited was last forgotten or given up; and so do
    those that are left when a host comes and the stale ones are dropped. -/
theorem History.replay_openUpdates (h : History layout window turns a)
    (hdown : a.phase = .disconnected) (t : Target) (u : UInt16) :
    replay t u 0 (openUpdates turns) = replay t u 0 a.backlog.pending
      ∧ ∀ now, replay t u 0 (openUpdates turns) = replay t u 0 (a.backlog.purge now).pending := by
  have hsame : replay t u 0 (openUpdates turns) = replay t u 0 a.backlog.pending := by
    induction h with
    | new => rfl
    | turn h hstep ih =>
      rw [openUpdates_append_singleton]
      exact replay_extend h.sound hstep hdown ih
  refine ⟨hsame, ?_⟩
  intro now
  rw [Backlog.replay_purge, hsame]

/-- A press and its release are dropped for their age, and the press behind them stays. -/
theorem replay_openUpdates_press_release :
    ∃ turns a, History Layout.standard 500 turns a
      ∧ turns.map Turn.stimulus
        = [(.ready, 0), (.key 4 true, 10), (.key 4 false, 20), (.key 5 true, 600)]
      ∧ (openUpdates turns).length = 3 ∧ a.backlog.size = 1
      ∧ replay .keyboard 5 0 (openUpdates turns) = replay .keyboard 5 0 a.backlog.pending := by
  obtain ⟨turns, a, h, hinputs, hstate⟩ := exists_history Layout.standard 500
    [(.ready, 0), (.key 4 true, 10), (.key 4 false, 20), (.key 5 true, 600)]
    (fun turns a => a.phase = .disconnected && a.backlog.size = 1 && (openUpdates turns).length = 3)
    (by decide +kernel)
  simp only [Bool.and_eq_true, decide_eq_true_eq] at hstate
  obtain ⟨⟨hdown, hsize⟩, hlength⟩ := hstate
  exact ⟨turns, a, h, hinputs, hlength, hsize, (h.replay_openUpdates hdown .keyboard 5).1⟩

end Peripheral
