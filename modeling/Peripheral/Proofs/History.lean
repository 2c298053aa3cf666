import Peripheral.Aggregator.Run

/-!
# `Peripheral.Proofs.History` — what an aggregator has been through

A run hands back its last state and all that was said. What a state owes to the inputs before it
needs more than that: which of them found a host, which updates waited, what was said to which input.
A history keeps all of it, one turn for each input, and grows at its end, so that what a turn adds is
the step of an induction.

## Contents
- `Turn`, `History`: the inputs that an aggregator has handled, with the states around each of them.
- `run_eq_ok_iff_history`: histories are the runs that end without a fault.
- `Along`: properties of the turns, each of them seen together with the turns before it.
- `Path`, `History.split`: what lies between two states of a history.
- `Aggregator.record`, `History.exists_longer`, `exists_history`: histories that are computed.
-/

namespace Peripheral

/-- An input that was handled: its time of arrival, the states before and after it, and what was said
    to it. -/
structure Turn where
  before : Aggregator
  input : Input
  now : UInt32
  after : Aggregator
  said : List Output

/-- The input of a turn and its time of arrival. -/
def Turn.stimulus (t : Turn) : Input × UInt32 := (t.input, t.now)

/-- **Histories.** A new aggregator has handled the inputs of `turns`, one after the other and without a
    fault, and is in state `a` now. -/
inductive History (layout : Layout) (window : UInt32) : List Turn → Aggregator → Prop
  | new : History layout window [] (.create layout window)
  | turn {turns : List Turn} {a b : Aggregator} {input : Input} {now : UInt32} {out : List Output}
      (h : History layout window turns a) (hstep : a.step input now = .ok (b, out)) :
      History layout window (turns ++ [⟨a, input, now, b, out⟩]) b

variable {layout : Layout} {window : UInt32}

/-! ## Histories are runs -/

/-- The inputs of a history run to its last state, and say what its turns say. -/
theorem History.run_eq_ok {turns : List Turn} {a : Aggregator} (h : History layout window turns a) :
    (Aggregator.create layout window).run (turns.map Turn.stimulus)
      = .ok (a, turns.flatMap Turn.said) := by
  induction h with
  | new => rfl
  | turn h hstep ih =>
    rw [List.map_append, List.flatMap_append, Aggregator.run_append_eq_ok]
    refine ⟨_, _, _, ih, Aggregator.run_cons_eq_ok.mpr ⟨_, _, _, hstep, Aggregator.run_nil _, rfl⟩, ?_⟩
    simp

/-- A run that goes on where a history ends makes the history longer. -/
theorem History.append_run {turns : List Turn} {a b : Aggregator} {inputs : List (Input × UInt32)}
    {out : List Output} (h : History layout window turns a) (hrun : a.run inputs = .ok (b, out)) :
    ∃ more, History layout window (turns ++ more) b ∧ more.map Turn.stimulus = inputs
      ∧ more.flatMap Turn.said = out := by
  induction inputs generalizing turns a out with
  | nil =>
    cases hrun
    exact ⟨[], by rwa [List.append_nil], rfl, rfl⟩
  | cons i rest ih =>
    obtain ⟨input, now⟩ := i
    -- The rest of the run goes on from the history that is one turn longer.
    obtain ⟨c, o, p, hstep, hrest, rfl⟩ := Aggregator.run_cons_eq_ok.mp hrun
    obtain ⟨more, hmore, hinputs, hsaid⟩ := ih (h.turn hstep) hrest
    refine ⟨⟨a, input, now, c, o⟩ :: more, ?_, ?_, ?_⟩
    · rwa [List.append_assoc] at hmore
    · rw [List.map_cons, hinputs]; rfl
    · rw [List.flatMap_cons, hsaid]

/-- **Histories are runs.** A run ends without a fault exactly if there is a history of its inputs, and
    what the run says is what the turns say. -/
theorem run_eq_ok_iff_history {inputs : List (Input × UInt32)} {a : Aggregator} {out : List Output} :
    (Aggregator.create layout window).run inputs = .ok (a, out) ↔
      ∃ turns, History layout window turns a ∧ turns.map Turn.stimulus = inputs
        ∧ turns.flatMap Turn.said = out := by
  constructor
  · intro hrun
    exact History.new.append_run hrun
  · rintro ⟨turns, h, rfl, rfl⟩
    exact h.run_eq_ok

/-! ## Properties of turns -/

/-- Every turn of a history has the property, given the turns before it. -/
def Along (P : List Turn → Turn → Prop) (turns : List Turn) : Prop :=
  ∀ pre turn post, turns = pre ++ turn :: post → P pre turn

/-- A split of a list that has grown by one member is a split of the shorter list, or it is at the new
    member. -/
theorem split_append_singleton {α : Type} {l pre post : List α} {x y : α}
    (h : l ++ [x] = pre ++ y :: post) :
    (l = pre ∧ x = y) ∨ ∃ init, l = pre ++ y :: init := by
  rcases List.eq_nil_or_concat post with rfl | ⟨init, last, rfl⟩
  · obtain ⟨hpre, hlast⟩ := List.append_inj' h rfl
    exact .inl ⟨hpre, List.singleton_inj.mp hlast⟩
  · rw [List.concat_eq_append, ← List.cons_append, ← List.append_assoc] at h
    exact .inr ⟨init, (List.append_inj' h rfl).1⟩

theorem along_nil {P : List Turn → Turn → Prop} : Along P [] := by
  intro pre turn post hturns
  simp at hturns

/-- One more turn adds its own property. -/
theorem along_append_singleton {P : List Turn → Turn → Prop} {turns : List Turn} {turn : Turn} :
    Along P (turns ++ [turn]) ↔ Along P turns ∧ P turns turn := by
  constructor
  · intro h
    refine ⟨?_, h turns turn [] rfl⟩
    intro pre t post hturns
    apply h pre t (post ++ [turn])
    rw [hturns, List.append_assoc, List.cons_append]
  · rintro ⟨hbefore, hturn⟩ pre t post hturns
    rcases split_append_singleton hturns with ⟨rfl, rfl⟩ | ⟨init, hinit⟩
    · exact hturn
    · exact hbefore pre t init hinit

instance (P : List Turn → Turn → Prop) [∀ pre turn, Decidable (P pre turn)] (turns : List Turn) :
    Decidable (Along P turns) :=
  decidable_of_iff (∀ i : Fin turns.length, P (turns.take i) turns[i]) (by
    constructor
    · rintro h pre turn post rfl
      simpa using h ⟨pre.length, by simp⟩
    · intro h i
      apply h _ _ (turns.drop (i + 1))
      rw [Fin.getElem_fin, ← List.drop_eq_getElem_cons, List.take_append_drop])

/-- **A history is one step after the other.** Each turn took place in the state that the turns before
    it led to. -/
theorem History.along {turns : List Turn} {a : Aggregator} (h : History layout window turns a) :
    Along (fun pre turn => History layout window pre turn.before
      ∧ turn.before.step turn.input turn.now = .ok (turn.after, turn.said)) turns := by
  induction h with
  | new => exact along_nil
  | turn h hstep ih => exact along_append_singleton.mpr ⟨ih, h, hstep⟩

/-! ## Histories in parts -/

/-- **Paths.** The turns lead from one state to another, one after the other and without a fault. -/
inductive Path : Aggregator → List Turn → Aggregator → Prop
  | nil {a : Aggregator} : Path a [] a
  | cons {a b c : Aggregator} {input : Input} {now : UInt32} {out : List Output} {turns : List Turn}
      (hstep : a.step input now = .ok (b, out)) (h : Path b turns c) :
      Path a (⟨a, input, now, b, out⟩ :: turns) c

/-- A path can be walked part by part. -/
theorem path_append {a c : Aggregator} {first second : List Turn} :
    Path a (first ++ second) c ↔ ∃ b, Path a first b ∧ Path b second c := by
  constructor
  · intro h
    induction first generalizing a with
    | nil => exact ⟨a, .nil, h⟩
    | cons t rest ih =>
      cases h with
      | cons hstep hrest =>
        obtain ⟨b, hfirst, hsecond⟩ := ih hrest
        exact ⟨b, .cons hstep hfirst, hsecond⟩
  · rintro ⟨b, hfirst, hsecond⟩
    induction hfirst with
    | nil => exact hsecond
    | cons hstep hrest ih => exact .cons hstep (ih hsecond)

/-- A path that goes on where a history ends makes the history longer. -/
theorem History.append_path {turns more : List Turn} {a b : Aggregator}
    (h : History layout window turns a) (hpath : Path a more b) : History layout window (turns ++ more) b := by
  induction hpath generalizing turns with
  | nil => rwa [List.append_nil]
  | cons hstep hrest ih =>
    have hmore := ih (h.turn hstep)
    rwa [List.append_assoc] at hmore

/-- Turns lead to one state only. -/
theorem History.unique {turns : List Turn} {a b : Aggregator} (ha : History layout window turns a)
    (hb : History layout window turns b) : a = b := by
  have hsame := ha.run_eq_ok.symm.trans hb.run_eq_ok
  exact congrArg Prod.fst (Except.ok.inj hsame)

/-- **A history is a shorter one and a path.** -/
theorem History.split {first second : List Turn} {b : Aggregator}
    (h : History layout window (first ++ second) b) :
    ∃ a, History layout window first a ∧ Path a second b := by
  induction second generalizing first with
  | nil =>
    rw [List.append_nil] at h
    exact ⟨b, h, .nil⟩
  | cons t rest ih =>
    obtain ⟨hbefore, hstep⟩ := h.along first t rest rfl
    rw [List.append_cons] at h
    obtain ⟨c, hfirst, hpath⟩ := ih h
    -- The state after the turn is the one that the path goes on from.
    obtain rfl := (hbefore.turn hstep).unique hfirst
    exact ⟨t.before, hbefore, .cons hstep hpath⟩

/-! ## Histories that are computed -/

/-- Handle inputs one after the other and keep every turn. -/
def Aggregator.record (a : Aggregator) :
    List (Input × UInt32) → Except Fault (List Turn × Aggregator)
  | [] => .ok ([], a)
  | (input, now) :: rest =>
    match a.step input now with
    | .error fault => .error fault
    | .ok (b, out) => (b.record rest).map fun r => (⟨a, input, now, b, out⟩ :: r.1, r.2)

/-- A record is one turn and the record of the rest. -/
theorem Aggregator.record_cons {a b c : Aggregator} {input : Input} {now : UInt32} {out : List Output}
    {rest : List (Input × UInt32)} {turns : List Turn} (hstep : a.step input now = .ok (b, out))
    (hrest : b.record rest = .ok (turns, c)) :
    a.record ((input, now) :: rest) = .ok (⟨a, input, now, b, out⟩ :: turns, c) := by
  unfold Aggregator.record
  rw [hstep]
  dsimp only
  rw [hrest]
  rfl

/-- What is recorded is a path, and it has the inputs that were to be handled. -/
theorem path_of_record {turns : List Turn} {a b : Aggregator} {inputs : List (Input × UInt32)}
    (hrec : a.record inputs = .ok (turns, b)) : Path a turns b ∧ turns.map Turn.stimulus = inputs := by
  induction inputs generalizing turns a with
  | nil =>
    cases hrec
    exact ⟨.nil, rfl⟩
  | cons i rest ih =>
    obtain ⟨input, now⟩ := i
    unfold Aggregator.record at hrec
    split at hrec
    · cases hrec
    · rename_i c out hstep
      cases hrest : c.record rest with
      | error fault => rw [hrest] at hrec; cases hrec
      | ok r =>
        rw [hrest] at hrec
        cases hrec
        obtain ⟨hpath, hinputs⟩ := ih hrest
        exact ⟨.cons hstep hpath, by rw [List.map_cons, hinputs]; rfl⟩

/-- A record that goes on where a history ends makes the history longer. -/
theorem History.append_record {turns more : List Turn} {a b : Aggregator}
    {inputs : List (Input × UInt32)} (h : History layout window turns a)
    (hrec : a.record inputs = .ok (more, b)) :
    History layout window (turns ++ more) b ∧ more.map Turn.stimulus = inputs := by
  obtain ⟨hpath, hinputs⟩ := path_of_record hrec
  exact ⟨h.append_path hpath, hinputs⟩

/-- What is computed of a record that goes on where a history ends holds of the longer history. -/
theorem History.exists_longer {turns : List Turn} {a : Aggregator} (h : History layout window turns a)
    (inputs : List (Input × UInt32)) (p : List Turn → Aggregator → Bool)
    (hp : (a.record inputs).toOption.any (fun r => p r.1 r.2) = true) :
    ∃ more b, History layout window (turns ++ more) b ∧ more.map Turn.stimulus = inputs ∧ p more b = true := by
  cases hrec : a.record inputs with
  | error fault => rw [hrec] at hp; cases hp
  | ok r =>
    obtain ⟨more, b⟩ := r
    rw [hrec] at hp
    obtain ⟨hhist, hinputs⟩ := h.append_record hrec
    exact ⟨more, b, hhist, hinputs, hp⟩

/-- What is computed of a record holds of a history. -/
theorem exists_history (layout : Layout) (window : UInt32) (inputs : List (Input × UInt32))
    (p : List Turn → Aggregator → Bool)
    (h : ((Aggregator.create layout window).record inputs).toOption.any (fun r => p r.1 r.2) = true) :
    ∃ turns a, History layout window turns a ∧ turns.map Turn.stimulus = inputs
      ∧ p turns a = true :=
  History.new.exists_longer inputs p h

end Peripheral
