import Mathlib.Algebra.Ring.Int.Defs
import Mathlib.Data.List.Induction
import Mathlib.Data.List.Infix
import Peripheral.Proofs.HostView

/-!
# `Peripheral.Proofs.MotionCarried` — motion is reported once

Motion adds up until a mouse report takes it along, and a mouse report can come about in many ways: from
motion on an idle link, from a button, from an update that had to wait, as company of a keyboard report, or
because the backlog has come to its end. An account is kept beside the aggregator of what the host is owed,
from the inputs and the reports alone: each input adds to it, and each mouse report settles it. That the
reports of a session are the settlements of this account, and the motion that waits its balance, says both
that nothing is lost and that nothing is told twice.

## Contents
- `Axis`, `Input.amount`, `Motion.along`, `MouseReport.along`: motion in one direction.
- `Beat`, `beats`: the inputs of some turns and the mouse reports between them.
- `untold`, `clampedSum`, `owed`: what the host is owed.
- `Carried`, `Carried.submit`, `Carried.step`: every settlement is what was owed.
- `Settles.owed_eq_sum`, `sum_entry_beats`: what adds up if nothing is cut off.
- `History.motion_carried`: the sessions of a history.
-/

namespace Peripheral

open Aggregator

/-! ## Motion in one direction -/

/-- The directions of motion: two of the pointer, and the wheel. -/
inductive Axis
  | x
  | y
  | wheel
  deriving DecidableEq, Repr

/-- The motion that an input brings. -/
def Input.amount (axis : Axis) : Input → Int
  | .motion dx dy =>
    match axis with
    | .x => dx.toInt
    | .y => dy.toInt
    | .wheel => 0
  | .wheel amount =>
    match axis with
    | .x | .y => 0
    | .wheel => amount.toInt
  | _ => 0

/-- The motion that waits. -/
def Motion.along (m : Motion) : Axis → Int
  | .x => m.dx.toInt
  | .y => m.dy.toInt
  | .wheel => m.wheel.toInt

/-- The motion that a report tells of. -/
def MouseReport.along (r : MouseReport) : Axis → Int
  | .x => r.x.toInt
  | .y => r.y.toInt
  | .wheel => r.wheel.toInt

/-- The nearest number of 16 bits. -/
def clamp16 (n : Int) : Int := max (-32768) (min 32767 n)

/-- The nearest number of 32 bits. -/
def clamp32 (n : Int) : Int := max (-2147483648) (min 2147483647 n)

@[simp] theorem Motion.along_zero (axis : Axis) : Motion.zero.along axis = 0 := by
  cases axis <;> rfl

/-- Motion that waits has 32 bits. -/
theorem Motion.clamp32_along (m : Motion) (axis : Axis) : clamp32 (m.along axis) = m.along axis := by
  have hrange : ∀ n : Int32, clamp32 n.toInt = n.toInt := by
    intro n
    have := n.toInt_lt
    have := n.le_toInt
    unfold clamp32
    omega
  cases axis <;> exact hrange _

/-- An input adds its motion to what waits. -/
theorem Pipeline.along_feel (p : Pipeline) (input : Input) (axis : Axis) :
    (p.feel input).motion.along axis = clamp32 (p.motion.along axis + input.amount axis) := by
  have hquiet : p.motion.along axis = clamp32 (p.motion.along axis + 0) := by
    rw [Int.add_zero, Motion.clamp32_along]
  cases input with
  | motion dx dy =>
    cases axis with
    | x => exact Saturating.toInt_accumulate p.motion.dx dx
    | y => exact Saturating.toInt_accumulate p.motion.dy dy
    | wheel => exact hquiet
  | wheel amount =>
    cases axis with
    | x | y => exact hquiet
    | wheel => exact Saturating.toInt_accumulate p.motion.wheel amount
  | _ => exact hquiet

/-- A mouse report tells of the motion that it was rendered from, as far as its fields can. -/
theorem HoldTable.along_mouseReport {table : HoldTable} {m : Motion} {r : MouseReport}
    (h : table.mouseReport m = .ok r) (axis : Axis) : r.along axis = clamp16 (m.along axis) := by
  unfold mouseReport at h
  split at h
  · cases h
    cases axis <;> exact Saturating.toInt_narrow _
  · cases h

/-! ## The account -/

/-- What bears on the account: an input as it is handled, and a mouse report as it is said. -/
inductive Beat
  | felt (input : Input)
  | told (r : MouseReport)
  deriving DecidableEq

/-- The mouse report that an output is. -/
def Output.mouse? : Output → Option MouseReport
  | .report (.mouse r) => some r
  | _ => none

/-- The mouse reports among some outputs. -/
def mouseReports (out : List Output) : List MouseReport := out.filterMap Output.mouse?

/-- A turn is its input, and the mouse reports that are said to it. -/
def Turn.beats (t : Turn) : List Beat := .felt t.input :: (mouseReports t.said).map .told

/-- The beats of some turns. -/
def beats (turns : List Turn) : List Beat := turns.flatMap Turn.beats

/-- The inputs that no mouse report has followed yet. -/
def untold (l : List Beat) : List Input :=
  l.foldl (fun inputs beat => match beat with
    | .felt input => inputs ++ [input]
    | .told _ => []) []

/-- The sum of the motion of some inputs, in order. It stops at the ends of 32 bits. -/
def clampedSum (axis : Axis) (inputs : List Input) : Int :=
  inputs.foldl (fun sum input => clamp32 (sum + input.amount axis)) 0

/-- What the host is owed: the motion that it has not been told of. -/
def owed (axis : Axis) (l : List Beat) : Int := clampedSum axis (untold l)

@[simp] theorem owed_append_felt (axis : Axis) (l : List Beat) (input : Input) :
    owed axis (l ++ [.felt input]) = clamp32 (owed axis l + input.amount axis) := by
  unfold owed untold clampedSum
  simp only [List.foldl_append, List.foldl_cons, List.foldl_nil]

@[simp] theorem owed_append_told (axis : Axis) (l : List Beat) (r : MouseReport) :
    owed axis (l ++ [.told r]) = 0 := by
  unfold owed untold clampedSum
  simp only [List.foldl_append, List.foldl_cons, List.foldl_nil]

/-- Every mouse report tells of what was owed before it, as far as its fields can. -/
def Settles (axis : Axis) (l : List Beat) : Prop :=
  ∀ pre r post, l = pre ++ .told r :: post → r.along axis = clamp16 (owed axis pre)

theorem settles_nil (axis : Axis) : Settles axis [] := by
  intro pre r post hl
  simp at hl

/-- One more beat, which is an input or tells of what was owed. -/
theorem Settles.append_singleton {axis : Axis} {l : List Beat} (h : Settles axis l) {beat : Beat}
    (hbeat : ∀ r, beat = .told r → r.along axis = clamp16 (owed axis l)) : Settles axis (l ++ [beat]) := by
  intro pre r post hl
  rcases split_append_singleton hl with ⟨rfl, rfl⟩ | ⟨init, hinit⟩
  · exact hbeat r rfl
  · exact h pre r init hinit

/-- **The invariant of the account**: it has been settled by every mouse report, and the motion that waits is
    its balance. -/
structure Carried (axis : Axis) (m : Motion) (l : List Beat) : Prop where
  settles : Settles axis l
  balance : m.along axis = owed axis l

namespace Carried

variable {axis : Axis} {l : List Beat} {p q : Pipeline} {a b : Aggregator}

theorem new : Carried axis .zero [] := ⟨settles_nil axis, Motion.along_zero axis⟩

/-- An input is felt. -/
theorem feel (h : Carried axis p.motion l) (input : Input) :
    Carried axis (p.feel input).motion (l ++ [.felt input]) where
  settles := h.settles.append_singleton nofun
  balance := by rw [Pipeline.along_feel, owed_append_felt, h.balance]

/-- A mouse report takes the motion along that waits. -/
theorem tell (h : Carried axis p.motion l) {table : HoldTable} {r : MouseReport}
    (hr : table.mouseReport p.motion = .ok r) : Carried axis .zero (l ++ [.told r]) where
  settles := by
    apply h.settles.append_singleton
    rintro _ ⟨⟩
    rw [HoldTable.along_mouseReport hr, h.balance]
  balance := by rw [owed_append_told, Motion.along_zero]

/-- **Reports that are submitted together settle the account**, all of them with the motion that waits. -/
theorem submit {tables : PerTarget HoldTable} {t : Target} {rs : List Report}
    (hsub : Pipeline.Submits tables p t q rs) (h : Carried axis p.motion l) :
    Carried axis q.motion (l ++ (mouseReports (rs.map Output.report)).map .told) := by
  induction hsub with
  | mouse hr hmore => exact h.tell hr
  | @mousePair p r s hr hs hnone =>
    have hsecond := Carried.tell (p := ⟨p.inFlight, .zero⟩) (h.tell hr) hs
    rwa [List.append_assoc] at hsecond
  | keyboard hk hmore =>
    show Carried axis _ (l ++ [])
    rwa [List.append_nil]
  | keyboardFirst hk hnone hmouse ih => exact ih h

/-- So do the reports of an aggregator that goes on. -/
theorem drain {pending : List Pending} {out : List Output} (hdrain : a.DrainsTo pending b out)
    (h : Carried axis a.pipeline.motion l) :
    Carried axis b.pipeline.motion (l ++ (mouseReports out).map .told) := by
  cases hdrain with
  | update hl hskip hupd hsub => exact h.submit hsub
  | motion hskip hsub hmoved => exact h.submit hsub
  | idle hskip hrest =>
    show Carried axis _ (l ++ [])
    rwa [List.append_nil]

/-- An input that is no motion adds nothing. -/
theorem feel_nothing (h : Carried axis p.motion l) {input : Input} (hinput : input.isMotion = false) :
    Carried axis p.motion (l ++ [.felt input]) := by
  have hfeel := h.feel input
  cases input with
  | motion | wheel => cases hinput
  | _ => exact hfeel

end Carried

/-! ## Turns -/

section Turns

variable {axis : Axis} {l : List Beat} {a b : Aggregator} {input : Input} {now : UInt32} {out : List Output}

/-- A turn is felt first, and then it tells. -/
theorem append_beats (l : List Beat) (t : Turn) :
    l ++ t.beats = l ++ [.felt t.input] ++ (mouseReports t.said).map .told := by
  rw [Turn.beats, List.append_assoc, List.singleton_append]

/-- Activity is no mouse report. -/
@[simp] theorem mouseReports_append_activity (out : List Output) :
    mouseReports (out ++ [.activity]) = mouseReports out := by
  simp [mouseReports, Output.mouse?]

/-- **A turn keeps the invariant**, unless a host begins to listen in it. -/
theorem Carried.step (h : Carried axis a.pipeline.motion l) (hstep : a.step input now = .ok (b, out))
    (hopens : Turn.opens ⟨a, input, now, b, out⟩ = false) :
    Carried axis b.pipeline.motion (l ++ Turn.beats ⟨a, input, now, b, out⟩) := by
  rw [append_beats]
  dsimp only
  -- Most inputs are no motion, and nothing is said to them.
  have hquiet : ∀ {input : Input} {p : Pipeline}, input.isMotion = false → p.motion = a.pipeline.motion →
      Carried axis p.motion (l ++ [.felt input] ++ []) := by
    intro input p hinput hp
    rw [List.append_nil, hp]
    exact h.feel_nothing hinput
  cases outcome_of_step hstep with
  | unbound | ignored | deferred | stray | unmoved | started => exact hquiet rfl rfl
  | late => exact hquiet rfl (Pipeline.motion_acknowledge _ _)
  | disconnected hup =>
    refine hquiet rfl ?_
    rw [disconnect, if_neg hup]
    rfl
  | applied he hidle hupd hsub =>
    rw [mouseReports_append_activity]
    exact (h.feel_nothing rfl).submit hsub
  | moved hmotion hidle hsub =>
    rw [mouseReports_append_activity]
    exact (h.feel input).submit hsub
  | moving hmotion hbusy =>
    show Carried axis _ (l ++ [.felt input] ++ [])
    rw [List.append_nil]
    exact h.feel input
  | delivered hsome hup hdrain =>
    show Carried axis (Pipeline.motion _) _
    rw [Pipeline.motion_acknowledge]
    exact (h.feel_nothing rfl).drain hdrain
  | connected hdown hdrain => simp [Turn.opens, hdown] at hopens

/-- **A host that begins to listen is owed nothing from before.** -/
theorem carried_of_opens (hstep : a.step input now = .ok (b, out))
    (hopens : Turn.opens ⟨a, input, now, b, out⟩ = true) :
    Carried axis b.pipeline.motion (Turn.beats ⟨a, input, now, b, out⟩) := by
  obtain ⟨hinput, hdown⟩ := Bool.and_eq_true_iff.mp hopens
  cases of_decide_eq_true hinput
  cases outcome_of_step hstep with
  | connected hdown hdrain =>
    have hnew : Carried axis (a.meeting now).pipeline.motion ([] ++ [.felt (.link true)]) :=
      Carried.new.feel_nothing (p := a.pipeline.forgetMotion) rfl
    exact hnew.drain hdrain
  | unmoved hsame => exact absurd (hsame.mp (of_decide_eq_true hdown)) (by decide)
  | moved hmotion | moving hmotion => cases hmotion

end Turns

/-! ## What adds up -/

/-- What a beat does to the account: an input adds to it, and a mouse report takes off. -/
def Beat.entry (axis : Axis) : Beat → Int
  | .felt input => input.amount axis
  | .told r => -r.along axis

/-- **The balance is the sum of the entries** if no sum leaves 16 bits, so that nothing is ever cut off. -/
theorem Settles.owed_eq_sum {axis : Axis} {l : List Beat} (h : Settles axis l)
    (hfits : ∀ pre, pre <+: l → -32768 ≤ owed axis pre ∧ owed axis pre ≤ 32767) :
    owed axis l = (l.map (Beat.entry axis)).sum := by
  induction l using List.reverseRecOn with
  | nil => rfl
  | append_singleton l beat ih =>
    have hbefore := ih (fun pre r post hl => h pre r (post ++ [beat]) (by simp [hl]))
      fun pre hpre => hfits pre (hpre.trans (List.prefix_append l [beat]))
    have hall := hfits _ (List.prefix_refl _)
    rw [List.map_append, List.sum_append, ← hbefore, List.map_singleton, List.sum_singleton]
    cases beat with
    | felt input =>
      rw [owed_append_felt] at hall ⊢
      unfold clamp32 at hall ⊢
      rw [Beat.entry]
      omega
    | told r =>
      have hr := h l r [] rfl
      have hl := hfits l (List.prefix_append l [.told r])
      unfold clamp16 at hr
      rw [owed_append_told, Beat.entry]
      omega

/-- The entries of some turns are their inputs and the mouse reports that they say. -/
theorem sum_entry_beats (axis : Axis) (turns : List Turn) :
    ((beats turns).map (Beat.entry axis)).sum
      = (turns.map fun t => t.input.amount axis).sum
        - ((mouseReports (turns.flatMap Turn.said)).map fun r => r.along axis).sum := by
  have htold : ∀ rs : List MouseReport,
      ((rs.map Beat.told).map (Beat.entry axis)).sum = -(rs.map fun r => r.along axis).sum := by
    intro rs
    induction rs with
    | nil => rfl
    | cons r rest ih =>
      simp only [List.map_cons, List.sum_cons, ih, Beat.entry]
      omega
  induction turns with
  | nil => rfl
  | cons t rest ih =>
    have hsplit : mouseReports ((t :: rest).flatMap Turn.said)
        = mouseReports t.said ++ mouseReports (rest.flatMap Turn.said) := by
      rw [List.flatMap_cons, mouseReports, List.filterMap_append]
      rfl
    rw [hsplit, beats, List.flatMap_cons, ← beats, Turn.beats]
    simp only [List.map_append, List.map_cons, List.sum_append, List.sum_cons, List.cons_append, ih, htold,
      Beat.entry]
    omega

/-- After mouse reports nothing is owed. -/
theorem owed_append_told_all (axis : Axis) (l : List Beat) {rs : List MouseReport} (hrs : rs ≠ []) :
    owed axis (l ++ rs.map .told) = 0 := by
  rcases List.eq_nil_or_concat rs with rfl | ⟨init, last, rfl⟩
  · exact absurd rfl hrs
  · rw [List.concat_eq_append, List.map_append, ← List.append_assoc]
    exact owed_append_told axis _ last

/-- A mouse report that follows others at once tells of no motion. -/
theorem Settles.along_eq_zero_of_told {axis : Axis} {l post : List Beat} {r s : MouseReport} {rest : List MouseReport}
    (h : Settles axis (l ++ (r :: rest).map .told ++ post)) (hs : s ∈ rest) : s.along axis = 0 := by
  obtain ⟨between, behind, rfl⟩ := List.append_of_mem hs
  have howed := h (l ++ (r :: between).map .told) s (behind.map .told ++ post) (by simp)
  rw [owed_append_told_all _ _ (List.cons_ne_nil r between)] at howed
  exact howed

/-- A mouse report that follows another one in the same turn tells of no motion. -/
theorem Settles.along_eq_zero {axis : Axis} {turns : List Turn} (h : Settles axis (beats turns)) {t : Turn}
    (ht : t ∈ turns) {r s : MouseReport} {rest : List MouseReport} (hrs : mouseReports t.said = r :: rest)
    (hs : s ∈ rest) : s.along axis = 0 := by
  obtain ⟨before, after, rfl⟩ := List.append_of_mem ht
  have hbeats : beats (before ++ t :: after)
      = beats before ++ [.felt t.input] ++ (r :: rest).map .told ++ beats after := by
    simp [beats, Turn.beats, hrs]
  rw [hbeats] at h
  exact h.along_eq_zero_of_told hs

/-! ## Sessions -/

/-- The beats since a host began to listen. -/
def sessionBeats (turns : List Turn) : List Beat :=
  turns.foldl (fun l t => if t.opens then t.beats else l ++ t.beats) []

@[simp] theorem sessionBeats_append_singleton (turns : List Turn) (t : Turn) :
    sessionBeats (turns ++ [t]) = if t.opens then t.beats else sessionBeats turns ++ t.beats := by
  rw [sessionBeats, List.foldl_append]
  rfl

/-- The beats of a session are those of its turns. -/
theorem sessionBeats_eq {past session : List Turn} {opening : Turn} (hopens : opening.opens = true)
    (hsession : ∀ t ∈ session, t.opens = false) :
    sessionBeats (past ++ opening :: session) = beats (opening :: session) := by
  have hrest : ∀ l, session.foldl (fun l t => if t.opens then t.beats else l ++ t.beats) l
      = l ++ beats session := by
    induction session with
    | nil => simp [beats]
    | cons t rest ih =>
      obtain ⟨ht, hafter⟩ := List.forall_mem_cons.mp hsession
      intro l
      rw [List.foldl_cons, ht, if_neg Bool.false_ne_true, ih hafter]
      simp [beats]
  rw [sessionBeats, List.foldl_append, List.foldl_cons, if_pos hopens, hrest]
  rfl

/-- **The account is kept along a history.** -/
theorem History.carried {layout : Layout} {window : UInt32} {turns : List Turn} {a : Aggregator}
    (h : History layout window turns a) (axis : Axis) :
    Carried axis a.pipeline.motion (sessionBeats turns) := by
  induction h with
  | new => exact .new
  | @turn turns a b input now out h hstep ih =>
    rw [sessionBeats_append_singleton]
    split
    · rename_i hopens
      exact carried_of_opens hstep hopens
    · rename_i hopens
      exact ih.step hstep (by simpa using hopens)

/-- **Motion is reported exactly once.** Let a host begin to listen in the turn `opening`, and no other host
    in the turns of `session` behind it. For each direction of motion, whatever state the session is in:
    - every mouse report of the session tells of the sum of what was felt since the mouse report before it,
      or since the session began, added up in order within 32 bits and then cut to 16 bits;
    - the motion that waits is the sum since the last mouse report, not cut to 16 bits;
    - if no such sum leaves 16 bits, what the mouse reports tell and what waits come to the motion of the
      whole session, and to nothing from before it;
    - a mouse report that only fills the pipeline behind another one of its turn tells of no motion, so
      if one that accompanies a keyboard report does, it is the first of its turn;
    - on an idle link no motion waits. -/
theorem History.motion_carried {layout : Layout} {window : UInt32} {past session : List Turn} {opening : Turn}
    {a : Aggregator} (h : History layout window (past ++ opening :: session) a)
    (hopens : opening.opens = true) (hsession : ∀ t ∈ session, t.opens = false) (axis : Axis) :
    (∀ pre r post, beats (opening :: session) = pre ++ .told r :: post →
        r.along axis = clamp16 (clampedSum axis (untold pre)))
      ∧ a.pipeline.motion.along axis = clampedSum axis (untold (beats (opening :: session)))
      ∧ ((∀ pre, pre <+: beats (opening :: session) →
            -32768 ≤ clampedSum axis (untold pre) ∧ clampedSum axis (untold pre) ≤ 32767) →
          ((mouseReports ((opening :: session).flatMap Turn.said)).map fun r => r.along axis).sum
              + a.pipeline.motion.along axis
            = ((opening :: session).map fun t => t.input.amount axis).sum)
      ∧ (∀ t ∈ opening :: session, ∀ r rest, mouseReports t.said = r :: rest →
          ∀ s ∈ rest, s.along axis = 0)
      ∧ (a.phase = .idle → a.pipeline.motion.along axis = 0) := by
  have hcarried := h.carried axis
  rw [sessionBeats_eq hopens hsession] at hcarried
  refine ⟨hcarried.settles, hcarried.balance, ?_, ?_, ?_⟩
  · intro hfits
    rw [hcarried.balance, hcarried.settles.owed_eq_sum hfits, sum_entry_beats]
    omega
  · intro t ht r rest hrs s hs
    exact hcarried.settles.along_eq_zero ht hrs hs
  · intro hidle
    rw [(h.sound.idle hidle).2, Motion.along_zero]

/-- Motion of an earlier session and motion without a host are forgotten. Then motion comes on a busy link, and
    the mouse report behind that of a key takes it along. -/
theorem motion_carried_behind_key :
    ∃ past opening session a, History Layout.standard 500 (past ++ opening :: session) a
      ∧ (past ++ opening :: session).map Turn.stimulus
        = [(.ready, 0), (.link true, 1), (.motion 5 (-5), 2), (.motion 3 3, 3), (.link false, 4),
          (.motion 9 9, 5), (.link true, 6), (.wheel 2, 7), (.motion 300 7, 8), (.key 4 true, 9),
          (.delivered .mouse, 10), (.motion (-20) 1, 11)]
      ∧ opening.opens = true ∧ (∀ t ∈ session, t.opens = false)
      ∧ (mouseReports ((opening :: session).flatMap Turn.said)).map (fun r => r.along .x) = [0, 0, 300]
      ∧ clampedSum .x (untold (beats (opening :: session))) = -20
      ∧ a.pipeline.motion.along .x = clampedSum .x (untold (beats (opening :: session)))
      ∧ ((mouseReports ((opening :: session).flatMap Turn.said)).map fun r => r.along .x).sum
          + a.pipeline.motion.along .x
        = ((opening :: session).map fun t => t.input.amount .x).sum := by
  obtain ⟨turns, a, h, hinputs, hstate⟩ := exists_history Layout.standard 500
    [(.ready, 0), (.link true, 1), (.motion 5 (-5), 2), (.motion 3 3, 3), (.link false, 4),
      (.motion 9 9, 5), (.link true, 6), (.wheel 2, 7), (.motion 300 7, 8), (.key 4 true, 9),
      (.delivered .mouse, 10), (.motion (-20) 1, 11)]
    (fun turns _ => match turns.drop 6 with
      | opening :: session => decide (opening.opens = true ∧ (∀ t ∈ session, t.opens = false)
        ∧ (mouseReports ((opening :: session).flatMap Turn.said)).map (fun r => r.along .x) = [0, 0, 300]
        ∧ clampedSum .x (untold (beats (opening :: session))) = -20
        ∧ ∀ pre ∈ (beats (opening :: session)).inits,
          -32768 ≤ clampedSum .x (untold pre) ∧ clampedSum .x (untold pre) ≤ 32767)
      | [] => false) (by decide +kernel)
  rw [← List.take_append_drop 6 turns] at h hinputs
  cases hdrop : turns.drop 6 with
  | nil => rw [hdrop] at hstate; cases hstate
  | cons opening session =>
    rw [hdrop] at h hinputs hstate
    obtain ⟨hopens, hsession, hreports, hwaits, hfits⟩ := of_decide_eq_true hstate
    obtain ⟨-, hbalance, hsum, -, -⟩ := h.motion_carried hopens hsession .x
    exact ⟨_, opening, session, a, h, hinputs, hopens, hsession, hreports, hwaits, hbalance,
      hsum fun pre hpre => hfits pre ((List.mem_inits pre _).mpr hpre)⟩

end Peripheral
