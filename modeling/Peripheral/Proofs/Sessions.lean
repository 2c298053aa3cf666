import Mathlib.Data.List.Induction
import Peripheral.Proofs.Course

/-!
# `Peripheral.Proofs.Sessions` — reports that outlive their session

When the host goes away the aggregator forgets its reports, but the channels do not: those on the way stay in
their line, and so do their acknowledgements. If a host comes back before the line has run empty, it is told
what was held in the session before, and acknowledgements of that session are taken for its own. Since the
line is first in, first out, it is enough to count the reports that were on the way as the session began,
and to take off one for each acknowledgement.

## Contents
- `Sessions`, `sessions`: the session of each report on the way.
- `Leg.KeepsToSession`: what is written and what is acknowledged belongs to the session of the host.
- `overhang`: the reports on the way that are of earlier sessions.
- `Sessions.InOrder`, `Course.tags_inOrder`: those come first.
- `Course.keepsToSession_iff`: when legs keep to their session.
- `reconnecting`, `not_keepsToSession_reconnecting`: a course in which one does not.
-/

namespace Peripheral.Firmware

/-! ## Sessions -/

/-- In this leg the aggregator begins to report to a host. -/
def Leg.opens (leg : Leg) : Bool :=
  leg.handled? = some (.link true) && leg.before.aggregator.phase = .disconnected

/-- How many sessions have begun, and in which one each report on the way was rendered, in the order of the
    line. -/
structure Sessions where
  number : Nat
  tags : List Nat
  deriving DecidableEq, Repr

/-- An acknowledgement takes the oldest tag with it, and new reports are of the session of their leg, which
    begins before they are rendered. -/
def Sessions.after (s : Sessions) (leg : Leg) : Sessions where
  number := if leg.opens then s.number + 1 else s.number
  tags := (if leg.heard?.isSome then s.tags.tail else s.tags)
    ++ List.replicate leg.launched.length (if leg.opens then s.number + 1 else s.number)

/-- The sessions of a course. -/
def sessions (legs : List Leg) : Sessions := legs.foldl Sessions.after ⟨0, []⟩

@[simp] theorem sessions_append_singleton (legs : List Leg) (leg : Leg) :
    sessions (legs ++ [leg]) = (sessions legs).after leg := by
  rw [sessions, List.foldl_append]
  rfl

/-- The output is the end of a write. -/
def Entry.isWritten : Entry → Bool
  | .written _ _ => true
  | .notice _ => false

/-- In this leg the write of a report is over, while the aggregator takes a host to be there. -/
def Leg.delivers (leg : Leg) : Bool :=
  leg.seen.any Entry.isWritten && leg.before.aggregator.phase ≠ .disconnected

/-- In this leg the aggregator takes an acknowledgement for one of a report that it waits for. -/
def Leg.accepts (leg : Leg) : Bool :=
  leg.heard?.any fun t => leg.before.aggregator.pipeline.inFlight.get t ≠ 0

/-- **A leg keeps to its session**: a report whose write is over was rendered in the session, and so was one
    whose acknowledgement is accepted. The writer has the report behind those whose acknowledgement
    waits. -/
def Leg.KeepsToSession (s : Sessions) (leg : Leg) : Prop :=
  (leg.delivers = true → s.tags[leg.before.acknowledgements.length]? = some s.number)
    ∧ (leg.accepts = true → s.tags.head? = some s.number)

instance (s : Sessions) (leg : Leg) : Decidable (leg.KeepsToSession s) :=
  inferInstanceAs (Decidable (_ ∧ _))

/-- What is on the way as a session begins hangs over, and each acknowledgement takes one of it off. -/
def Leg.overhangs (n : Nat) (leg : Leg) : Nat :=
  if leg.opens then leg.before.line.length else if leg.heard?.isSome then n - 1 else n

/-- The reports on the way that were there before the session. -/
def overhang (legs : List Leg) : Nat := legs.foldl Leg.overhangs 0

@[simp] theorem overhang_append_singleton (legs : List Leg) (leg : Leg) :
    overhang (legs ++ [leg]) = leg.overhangs (overhang legs) := by
  rw [overhang, List.foldl_append]
  rfl

/-! ## Tags and overhang -/

/-- **The tags are in order**: those of earlier sessions come first, as many as hang over, and all others are
    of the session. -/
structure Sessions.InOrder (s : Sessions) (n : Nat) (line : List Target) : Prop where
  length_eq : s.tags.length = line.length
  split : ∃ old count, s.tags = old ++ List.replicate count s.number ∧ old.length = n
    ∧ ∀ tag ∈ old, tag < s.number

/-- A tag is of the session if it is behind the overhang. -/
theorem Sessions.InOrder.getElem?_eq_iff {s : Sessions} {n : Nat} {line : List Target}
    (h : s.InOrder n line) {i : Nat} (hi : i < line.length) :
    s.tags[i]? = some s.number ↔ n ≤ i := by
  obtain ⟨old, count, htags, hlength, hold⟩ := h.split
  have hcount := h.length_eq
  rw [htags, List.length_append, List.length_replicate] at hcount
  rw [htags]
  constructor
  · intro hget
    rcases Nat.lt_or_ge i old.length with hlt | hle
    · rw [List.getElem?_append_left hlt, List.getElem?_eq_getElem hlt, Option.some.injEq] at hget
      exact absurd (hold _ (List.getElem_mem hlt)) (by omega)
    · omega
  · intro hle
    rw [List.getElem?_append_right (by omega), List.getElem?_replicate, if_pos (by omega)]

/-- **A leg keeps the tags in order.** -/
theorem Sessions.InOrder.after {s : Sessions} {n : Nat} {leg : Leg} (h : s.InOrder n leg.before.line)
    (hline : leg.after.line
      = (if leg.heard?.isSome then leg.before.line.tail else leg.before.line) ++ leg.launched) :
    (s.after leg).InOrder (leg.overhangs n) leg.after.line := by
  obtain ⟨old, count, htags, hlength, hold⟩ := h.split
  constructor
  · rw [hline, Sessions.after, List.length_append, List.length_append, List.length_replicate]
    cases leg.heard?.isSome <;> simp [h.length_eq]
  · unfold Sessions.after Leg.overhangs
    dsimp only
    by_cases hopens : leg.opens = true
    · -- Every tag that is there is of an earlier session now.
      have hheard : leg.heard? = none := by
        rw [Leg.opens, Bool.and_eq_true, decide_eq_true_eq] at hopens
        rw [Leg.heard?, hopens.1]
        rfl
      rw [if_pos hopens, if_pos hopens, hheard]
      refine ⟨s.tags, leg.launched.length, rfl, h.length_eq, ?_⟩
      intro tag htag
      rw [htags] at htag
      rcases List.mem_append.mp htag with hmem | hmem
      · exact Nat.lt_succ_of_lt (hold tag hmem)
      · rw [List.eq_of_mem_replicate hmem]
        exact Nat.lt_succ_self _
    · rw [if_neg hopens, if_neg hopens]
      by_cases hheard : leg.heard?.isSome = true
      · -- The oldest tag goes, and it is an earlier one if there is any.
        rw [if_pos hheard, if_pos hheard, htags]
        cases old with
        | nil =>
          refine ⟨[], count - 1 + leg.launched.length, ?_, by simp [← hlength], by simp⟩
          simp
        | cons x rest =>
          refine ⟨rest, count + leg.launched.length, ?_, by simp [← hlength], ?_⟩
          · simp
          · intro tag htag
            exact hold tag (List.mem_cons_of_mem _ htag)
      · rw [if_neg hheard, if_neg hheard, htags]
        refine ⟨old, count + leg.launched.length, ?_, hlength, hold⟩
        simp

/-- The tags of a course are in order. -/
theorem Course.tags_inOrder {legs : List Leg} {w : World} (h : Course legs w) :
    (sessions legs).InOrder (overhang legs) w.line := by
  induction h with
  | powerOn => exact ⟨rfl, [], 0, rfl, rfl, List.forall_mem_nil _⟩
  | leg h hgo ih =>
    rw [sessions_append_singleton, overhang_append_singleton]
    exact ih.after (World.line_of_go hgo)

/-! ## Writes and acknowledgements -/

/-- What a task logs is not the end of a write. -/
theorem isWritten_eq_false_of_notices {seen : List Entry} (h : ∀ e ∈ seen, ∃ n, e = .notice n) {e : Entry}
    (he : e ∈ seen) : e.isWritten = false := by
  obtain ⟨n, rfl⟩ := h e he
  rfl

/-- Only the writer ends a write, and it is that of the report that it has in hands. -/
theorem World.Does.writing {w v : World} {t : Task} {seen : List Entry} (h : w.Does t v seen) {e : Entry}
    (he : e ∈ seen) (hend : e.isWritten = true) : ∃ r, w.writer = .writing r := by
  have hnotices : (∀ e ∈ seen, ∃ n, e = Entry.notice n) → ∃ r, w.writer = .writing r := by
    intro hall
    rw [isWritten_eq_false_of_notices hall he] at hend
    cases hend
  by_cases haggregator : t = .aggregator
  · subst haggregator
    obtain ⟨input, a, inputs, reports, power, fault, kept, -, -, -, -, hseen⟩ := h.aggregator_eq
    apply hnotices
    intro e he
    obtain ⟨target, hdropped⟩ := hseen e he
    exact ⟨_, hdropped⟩
  · cases h with
    | starts | handles => exact absurd rfl haggregator
    | writes hwriter | fails hwriter => exact ⟨_, hwriter⟩
    | _ => exact hnotices (by simp)

theorem World.writing_of_go {w v : World} {move : Move} {seen : List Entry}
    (h : w.go? move = some (v, seen)) (hwritten : seen.any Entry.isWritten = true) :
    ∃ r, w.writer = .writing r := by
  obtain ⟨e, he, hend⟩ := List.any_eq_true.mp hwritten
  cases move with
  | outside o =>
    cases h
    cases he
  | step t => exact (does_of_go h).writing he hend

/-- An acknowledgement that is heard is that of the oldest report on the way. -/
theorem Leg.line_of_heard {leg : Leg} {t : Target} (h : leg.heard? = some t) :
    ∃ rest, leg.before.line = t :: rest := by
  unfold Leg.heard? Leg.handled? World.nextInput? at h
  split at h
  · split at h
    · cases hq : leg.before.inputs.queued with
      | nil => rw [hq] at h; cases h
      | cons input rest =>
        rw [hq] at h
        have hack : input.acknowledged? = some t := h
        refine ⟨rest.filterMap Input.acknowledged? ++ leg.before.writer.held
          ++ leg.before.reports.queued.map Report.target, ?_⟩
        rw [World.line, World.acknowledgements, hq, List.filterMap_cons_some hack]
        rfl
    · cases h
  · cases h

/-- What belongs to the session is behind the overhang. -/
theorem Course.keepsTo_iff_overhang {pre post : List Leg} {leg : Leg} {w : World}
    (h : Course (pre ++ leg :: post) w) :
    leg.KeepsToSession (sessions pre) ↔
      (leg.delivers = true → overhang pre ≤ leg.before.acknowledgements.length)
        ∧ (leg.accepts = true → overhang pre = 0) := by
  obtain ⟨hcourse, hgo⟩ := h.leg_of_append
  have horder := hcourse.tags_inOrder
  unfold Leg.KeepsToSession
  apply and_congr
  · apply imp_congr_right
    intro hdelivers
    rw [Leg.delivers, Bool.and_eq_true] at hdelivers
    obtain ⟨r, hr⟩ := World.writing_of_go hgo hdelivers.1
    apply horder.getElem?_eq_iff
    simp [World.line, Writer.held, hr]
  · apply imp_congr_right
    intro haccepts
    obtain ⟨t, ht⟩ : ∃ t, leg.heard? = some t := by
      cases hheard : leg.heard? with
      | none => rw [Leg.accepts, hheard] at haccepts; cases haccepts
      | some t => exact ⟨t, rfl⟩
    obtain ⟨rest, hrest⟩ := Leg.line_of_heard ht
    rw [List.head?_eq_getElem?, horder.getElem?_eq_iff (by simp [hrest]), Nat.le_zero]

/-- Nothing hangs over if every session begins with nothing on the way. -/
theorem overhang_eq_zero {legs : List Leg}
    (hquiet : ∀ leg ∈ legs, leg.opens = true → leg.before.line = []) : overhang legs = 0 := by
  induction legs using List.reverseRecOn with
  | nil => rfl
  | append_singleton legs leg ih =>
    have hbefore := ih fun l hl => hquiet l (List.mem_append_left _ hl)
    rw [overhang_append_singleton, Leg.overhangs, hbefore]
    split
    · rename_i hopens
      rw [hquiet leg (by simp) hopens]
      rfl
    · split <;> rfl

/-- **When a leg keeps to its session.** In any course, whatever the tasks did and however they took turns:
    - a write that is over was of a report of the session exactly if no more reports hang over from
      earlier sessions than have been written and wait to be acknowledged, and an acknowledgement
      that is accepted is of a report of the session exactly if none hangs over;
    - every leg keeps to its session if every session before it began with nothing on the way. -/
theorem Course.keepsToSession_iff {pre post : List Leg} {leg : Leg} {w : World}
    (h : Course (pre ++ leg :: post) w) :
    (leg.KeepsToSession (sessions pre) ↔
        (leg.delivers = true → overhang pre ≤ leg.before.acknowledgements.length)
          ∧ (leg.accepts = true → overhang pre = 0))
      ∧ ((∀ l ∈ pre, l.opens = true → l.before.line = []) → leg.KeepsToSession (sessions pre)) := by
  refine ⟨h.keepsTo_iff_overhang, ?_⟩
  intro hquiet
  have hnone := overhang_eq_zero hquiet
  apply h.keepsTo_iff_overhang.mpr
  rw [hnone]
  exact ⟨fun _ => Nat.zero_le _, fun _ => rfl⟩

/-- The first report of the first session is written, and nothing was on the way as the session began. -/
theorem keepsToSession_first_report :
    ∃ legs leg w, Course (legs ++ [leg]) w ∧ leg.delivers = true ∧ (sessions legs).number = 1
      ∧ leg.KeepsToSession (sessions legs) := by
  obtain ⟨legs, leg, w, h, -, hleg⟩ := exists_course
    [.step .aggregator, .step .writer, .outside (.configured true), .step .linkWatch, .step .linkWatch,
      .step .aggregator, .step (.button .third), .outside (.level 24 true), .step (.button .third),
      .outside (.elapse 20), .step (.button .third), .step (.button .third), .step .aggregator,
      .step .writer, .step .writer]
    (fun legs leg => decide (leg.delivers = true ∧ (sessions legs).number = 1
      ∧ ∀ l ∈ legs, l.opens = true → l.before.line = [])) (by decide +kernel)
  obtain ⟨hdelivers, hnumber, hquiet⟩ := of_decide_eq_true hleg
  exact ⟨legs, leg, w, h, hdelivers, hnumber, h.keepsToSession_iff.2 hquiet⟩

/-! ## A host that comes back soon -/

/-- The keyboard's endpoint is held up with the report of a key, while the host goes away and comes back. -/
def reconnecting : List Move :=
  [.step .aggregator, .step .writer, .outside (.configured true), .step .linkWatch, .step .linkWatch,
    .step .aggregator, .outside (.endpoint .keyboard .blocked), .step (.button .third),
    .outside (.level 24 true), .step (.button .third), .outside (.elapse 20), .step (.button .third),
    .step (.button .third), .step .aggregator, .step .writer, .outside (.configured false),
    .step .linkWatch, .step .linkWatch, .step .aggregator, .outside (.configured true),
    .step .linkWatch, .step .linkWatch, .step .aggregator, .outside (.endpoint .keyboard .accepting),
    .step .writer]

/-- **A host is told what was held before it came back**: the report of the earlier session is written while
    the aggregator has nothing held. -/
theorem not_keepsToSession_reconnecting :
    ∃ legs leg w, Course (legs ++ [leg]) w ∧ (legs ++ [leg]).map Leg.move = reconnecting
      ∧ leg.seen = [.written (.keyboard (.ofKeys [4])) true] ∧ leg.before.aggregator.phase = .idle
      ∧ leg.before.aggregator.tables.keyboard.isEmpty = true
      ∧ ¬ leg.KeepsToSession (sessions legs) := by
  obtain ⟨legs, leg, w, h, hmoves, hleg⟩ := exists_course reconnecting
    (fun legs leg => decide (leg.seen = [.written (.keyboard (.ofKeys [4])) true]
      ∧ leg.before.aggregator.phase = .idle ∧ leg.before.aggregator.tables.keyboard.isEmpty = true
      ∧ ¬ leg.KeepsToSession (sessions legs))) (by decide +kernel)
  exact ⟨legs, leg, w, h, hmoves, of_decide_eq_true hleg⟩

end Peripheral.Firmware
