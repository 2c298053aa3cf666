import Peripheral.Aggregator

/-!
# `Peripheral.Aggregator.Run` — inputs one after the other

A run hands each input to the aggregator at its time of arrival, and collects what is said. It ends
early only at a fault.

## Contents
- `run`: a run; `received` is what a receiver with limited room gets of it.
- `run_nil`, `run_cons_eq_ok`, `run_append_eq_ok`: runs in parts.
- `run_invariant`: what every step keeps holds after a run.
-/

namespace Peripheral.Aggregator

/-- Handle inputs one after the other. `said` holds the outputs so far, the latest first. -/
def runFrom (said : List Output) (a : Aggregator) :
    List (Input × UInt32) → Except Fault (Aggregator × List Output)
  | [] => .ok (a, said.reverse)
  | (input, now) :: rest =>
    match a.step input now with
    | .error fault => .error fault
    | .ok (a, out) => runFrom (out.reverse ++ said) a rest

/-- Handle inputs one after the other, and return all that was said. -/
def run (a : Aggregator) (inputs : List (Input × UInt32)) :
    Except Fault (Aggregator × List Output) :=
  runFrom [] a inputs

/-- What a receiver with `room` places gets of a list of outputs: the first ones fill it, and it
    misses the rest. -/
def received (room : Nat) (outputs : List Output) : List Output := outputs.take room

/-! ## Runs in parts -/

theorem runFrom_append (said older : List Output) (a : Aggregator)
    (inputs : List (Input × UInt32)) :
    runFrom (said ++ older) a inputs
      = (runFrom said a inputs).map fun r => (r.1, older.reverse ++ r.2) := by
  induction inputs generalizing said a with
  | nil => simp [runFrom, Except.map]
  | cons i rest ih =>
    obtain ⟨input, now⟩ := i
    unfold runFrom
    cases a.step input now with
    | error fault => rfl
    | ok r =>
      dsimp only
      rw [← List.append_assoc]
      exact ih _ _

@[simp] theorem run_nil (a : Aggregator) : a.run [] = .ok (a, []) := rfl

/-- A run goes well if its first step and the rest of it do. -/
theorem run_cons_eq_ok {a c : Aggregator} {input : Input} {now : UInt32}
    {rest : List (Input × UInt32)} {out : List Output} :
    a.run ((input, now) :: rest) = .ok (c, out) ↔
      ∃ b o p, a.step input now = .ok (b, o) ∧ b.run rest = .ok (c, p) ∧ out = o ++ p := by
  unfold run
  rw [runFrom]
  cases a.step input now with
  | error fault => simp
  | ok r =>
    obtain ⟨b, o⟩ := r
    have hsplit := runFrom_append [] o.reverse b rest
    rw [List.nil_append] at hsplit
    simp only [List.append_nil, hsplit, List.reverse_reverse]
    constructor
    · intro h
      cases hrest : runFrom [] b rest with
      | error fault => simp [hrest, Except.map] at h
      | ok q =>
        rw [hrest] at h
        cases h
        exact ⟨b, o, q.2, rfl, hrest, rfl⟩
    · rintro ⟨b', o', p, hstep, hrest, rfl⟩
      cases hstep
      rw [hrest]
      rfl

/-- A run goes well if its two parts do. -/
theorem run_append_eq_ok {a c : Aggregator} {first second : List (Input × UInt32)}
    {out : List Output} :
    a.run (first ++ second) = .ok (c, out) ↔
      ∃ b o p, a.run first = .ok (b, o) ∧ b.run second = .ok (c, p) ∧ out = o ++ p := by
  induction first generalizing a out with
  | nil =>
    constructor
    · intro h
      exact ⟨a, [], out, rfl, h, rfl⟩
    · rintro ⟨b, o, p, hfirst, hsecond, rfl⟩
      cases hfirst
      exact hsecond
  | cons i rest ih =>
    obtain ⟨input, now⟩ := i
    rw [List.cons_append, run_cons_eq_ok]
    constructor
    · rintro ⟨b, o, p, hstep, hrest, rfl⟩
      obtain ⟨d, q, s, hq, hs, rfl⟩ := ih.mp hrest
      exact ⟨d, o ++ q, s, run_cons_eq_ok.mpr ⟨b, o, q, hstep, hq, rfl⟩, hs,
        (List.append_assoc o q s).symm⟩
    · rintro ⟨d, oq, s, hfirst, hs, rfl⟩
      obtain ⟨b, o, q, hstep, hq, rfl⟩ := run_cons_eq_ok.mp hfirst
      exact ⟨b, o, q ++ s, hstep, ih.mpr ⟨d, q, s, hq, hs, rfl⟩, List.append_assoc o q s⟩

/-- What every step keeps holds after a run. -/
theorem run_invariant {P : Aggregator → Prop}
    (hkeep : ∀ a input now b out, P a → a.step input now = .ok (b, out) → P b)
    {a b : Aggregator} {inputs : List (Input × UInt32)} {out : List Output} (ha : P a)
    (h : a.run inputs = .ok (b, out)) : P b := by
  induction inputs generalizing a out with
  | nil =>
    cases h
    exact ha
  | cons i rest ih =>
    obtain ⟨input, now⟩ := i
    obtain ⟨c, o, p, hstep, hrest, -⟩ := run_cons_eq_ok.mp h
    exact ih (hkeep a input now c o ha hstep) hrest

end Peripheral.Aggregator
