/-!
# `Peripheral.Stepping` — running a machine until it has to wait

A machine is a partial function: a step takes it to its next state and says something, and no step
means that it waits for its surroundings. If every step lowers a measure, the machine comes to wait
after at most as many steps as the measure says.

## Contents
- `exhaust`: run until no step is possible, or a bound is reached.
- `exhaust_waits`: with a falling measure as the bound, the machine waits at the end.
- `exhaust_eq_of_waits`, `exhaust_lt`: a run changes nothing, or lowers the measure.
- `exhaust_invariant`, `exhaust_said_invariant`: what every step keeps holds at the end.
- `exhaust_related`: machines that go on together end together.
-/

namespace Peripheral.Stepping

variable {σ ε : Type}

/-- Take up to `bound` steps. `said` holds what has been said so far, the latest first. -/
def exhaustFrom (step : σ → Option (σ × List ε)) (said : List ε) : Nat → σ → σ × List ε
  | 0, s => (s, said.reverse)
  | bound + 1, s =>
    match step s with
    | none => (s, said.reverse)
    | some (s', out) => exhaustFrom step (out.reverse ++ said) bound s'

/-- Take steps until none is possible, but no more than `bound`, and return all that was said. -/
def exhaust (step : σ → Option (σ × List ε)) (bound : Nat) (s : σ) : σ × List ε :=
  exhaustFrom step [] bound s

theorem exhaustFrom_waits {step : σ → Option (σ × List ε)} {measure : σ → Nat}
    (hfall : ∀ s s' out, step s = some (s', out) → measure s' < measure s)
    (said : List ε) (bound : Nat) (s : σ) (hbound : measure s ≤ bound) :
    step (exhaustFrom step said bound s).1 = none := by
  induction bound generalizing said s with
  | zero =>
    cases h : step s with
    | none => exact h
    | some r =>
      obtain ⟨s', out⟩ := r
      have := hfall s s' out h
      omega
  | succ n ih =>
    unfold exhaustFrom
    split
    · assumption
    · rename_i s' out h
      have := hfall s s' out h
      exact ih _ s' (by omega)

/-- A machine whose steps lower a measure waits once that many steps were allowed. -/
theorem exhaust_waits {step : σ → Option (σ × List ε)} {measure : σ → Nat}
    (hfall : ∀ s s' out, step s = some (s', out) → measure s' < measure s) (s : σ) :
    step (exhaust step (measure s) s).1 = none :=
  exhaustFrom_waits hfall [] (measure s) s (Nat.le_refl _)

/-- A machine that waits stays as it is. -/
theorem exhaust_eq_of_waits {step : σ → Option (σ × List ε)} {s : σ} (h : step s = none)
    (bound : Nat) : (exhaust step bound s).1 = s := by
  unfold exhaust
  cases bound with
  | zero => rfl
  | succ n => simp [exhaustFrom, h]

theorem exhaustFrom_le {step : σ → Option (σ × List ε)} {measure : σ → Nat}
    (hfall : ∀ s s' out, step s = some (s', out) → measure s' < measure s)
    (said : List ε) (bound : Nat) (s : σ) :
    measure (exhaustFrom step said bound s).1 ≤ measure s := by
  induction bound generalizing said s with
  | zero => exact Nat.le_refl _
  | succ n ih =>
    unfold exhaustFrom
    split
    · exact Nat.le_refl _
    · rename_i s' out h
      have := hfall s s' out h
      have := ih (out.reverse ++ said) s'
      omega

/-- A machine that takes a step has a lower measure at the end. -/
theorem exhaust_lt {step : σ → Option (σ × List ε)} {measure : σ → Nat}
    (hfall : ∀ s s' out, step s = some (s', out) → measure s' < measure s)
    {s s' : σ} {out : List ε} (h : step s = some (s', out)) {bound : Nat} (hbound : 0 < bound) :
    measure (exhaust step bound s).1 < measure s := by
  obtain ⟨n, rfl⟩ := Nat.exists_eq_succ_of_ne_zero (Nat.pos_iff_ne_zero.mp hbound)
  have hfirst := hfall s s' out h
  have hrest := exhaustFrom_le hfall (out.reverse ++ []) n s'
  simp only [exhaust, exhaustFrom, h]
  omega

theorem exhaustFrom_said_invariant {step : σ → Option (σ × List ε)} {P : List ε → σ → Prop}
    (hkeep : ∀ said s s' out, step s = some (s', out) → P said s → P (said ++ out) s')
    (said : List ε) (bound : Nat) (s : σ) (hs : P said.reverse s) :
    P (exhaustFrom step said bound s).2 (exhaustFrom step said bound s).1 := by
  induction bound generalizing said s with
  | zero => exact hs
  | succ n ih =>
    unfold exhaustFrom
    split
    · exact hs
    · rename_i s' out h
      apply ih
      rw [List.reverse_append, List.reverse_reverse]
      exact hkeep _ s s' out h hs

/-- What every step keeps of the state and of all that was said holds after any number of them. -/
theorem exhaust_said_invariant {step : σ → Option (σ × List ε)} {P : List ε → σ → Prop}
    (hkeep : ∀ said s s' out, step s = some (s', out) → P said s → P (said ++ out) s') (bound : Nat) {s : σ}
    (hs : P [] s) : P (exhaust step bound s).2 (exhaust step bound s).1 :=
  exhaustFrom_said_invariant hkeep [] bound s hs

/-- What every step keeps holds after any number of them. -/
theorem exhaust_invariant {step : σ → Option (σ × List ε)} {P : σ → Prop}
    (hkeep : ∀ s s' out, step s = some (s', out) → P s → P s') (bound : Nat) {s : σ} (hs : P s) :
    P (exhaust step bound s).1 :=
  exhaust_said_invariant (P := fun _ s => P s) (fun _ s s' out h => hkeep s s' out h) bound hs

/-- A bound above the measure is as good as the measure. -/
theorem exhaustFrom_eq_of_le {step : σ → Option (σ × List ε)} {measure : σ → Nat}
    (hfall : ∀ s s' out, step s = some (s', out) → measure s' < measure s)
    (said : List ε) {bound bound' : Nat} (s : σ) (hbound : measure s ≤ bound) (hbound' : measure s ≤ bound') :
    exhaustFrom step said bound s = exhaustFrom step said bound' s := by
  induction bound generalizing said bound' s with
  | zero =>
    cases h : step s with
    | none => cases bound' <;> simp [exhaustFrom, h]
    | some r =>
      have := hfall s r.1 r.2 h
      omega
  | succ n ih =>
    cases h : step s with
    | none => cases bound' <;> simp [exhaustFrom, h]
    | some r =>
      have hless := hfall s r.1 r.2 h
      cases bound' with
      | zero => omega
      | succ n' =>
        simp only [exhaustFrom, h]
        exact ih _ r.1 (by omega) (by omega)

theorem exhaustFrom_related {τ δ : Type} {step : σ → Option (σ × List ε)} {step' : τ → Option (τ × List δ)}
    {R : σ → List ε → τ → List δ → Prop}
    (hboth : ∀ s said t told, R s said t told → step s = none ∧ step' t = none
      ∨ ∃ s' out t' out', step s = some (s', out) ∧ step' t = some (t', out') ∧ R s' (said ++ out) t' (told ++ out'))
    (said : List ε) (told : List δ) (bound : Nat) (s : σ) (t : τ) (h : R s said.reverse t told.reverse) :
    R (exhaustFrom step said bound s).1 (exhaustFrom step said bound s).2
      (exhaustFrom step' told bound t).1 (exhaustFrom step' told bound t).2 := by
  induction bound generalizing said told s t with
  | zero => exact h
  | succ n ih =>
    rcases hboth s _ t _ h with ⟨hs, ht⟩ | ⟨s', out, t', out', hs, ht, hnext⟩
    · simp only [exhaustFrom, hs, ht]
      exact h
    · simp only [exhaustFrom, hs, ht]
      apply ih
      simpa using hnext

/-- Two machines that go on together end together. -/
theorem exhaust_related {τ δ : Type} {step : σ → Option (σ × List ε)} {step' : τ → Option (τ × List δ)}
    {R : σ → List ε → τ → List δ → Prop}
    (hboth : ∀ s said t told, R s said t told → step s = none ∧ step' t = none
      ∨ ∃ s' out t' out', step s = some (s', out) ∧ step' t = some (t', out') ∧ R s' (said ++ out) t' (told ++ out'))
    (bound : Nat) {s : σ} {t : τ} (h : R s [] t []) :
    R (exhaust step bound s).1 (exhaust step bound s).2 (exhaust step' bound t).1 (exhaust step' bound t).2 :=
  exhaustFrom_related hboth [] [] bound s t h

end Peripheral.Stepping
