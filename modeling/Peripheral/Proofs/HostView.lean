import Peripheral.Proofs.Phases

/-!
# `Peripheral.Proofs.HostView` — what the host believes, and what is held

A host knows what it was told: the last report of each kind since it began to listen. A change of a
table is told at once, by a report of the table's own kind, with one exception. If the backlog of a busy
link overflows, both tables are cleared without a report, and the host goes on to believe what it heard
last until a report of that kind happens to follow.

## Contents
- `HostView`, `hostView`: the picture that the reports of a history leave.
- `HasButton`, `hasButton_buttonBits`: button bitmaps, bit by bit.
- `Turn.wipes`, `wiped`: tables that were cleared without a report.
- `Agrees`, `History.agrees`: a table is told, or it is a cleared one.
- `History.hostView_agrees_iff`: when the host's picture is right.
-/

namespace Peripheral

open Aggregator

/-! ## The host's picture -/

/-- What a host believes: the keys of the last keyboard report and the buttons of the last mouse
    report. -/
structure HostView where
  keyboard : KeyboardReport
  buttons : UInt8
  deriving DecidableEq

/-- Nothing was told yet, so nothing is down. -/
def HostView.blank : HostView := ⟨KeyboardReport.ofKeys [], 0⟩

/-- The picture after one more output. -/
def HostView.see (v : HostView) : Output → HostView
  | .report (.keyboard r) => { v with keyboard := r }
  | .report (.mouse r) => { v with buttons := r.buttons }
  | .activity => v

/-- The picture after some outputs. -/
def HostView.hear (v : HostView) (out : List Output) : HostView := out.foldl HostView.see v

/-- In this turn a host begins to listen. -/
def Turn.opens (t : Turn) : Bool := t.input = .link true && t.before.phase = .disconnected

/-- The picture after a turn. A new host starts from nothing. -/
def HostView.after (v : HostView) (t : Turn) : HostView :=
  (if t.opens then HostView.blank else v).hear t.said

/-- The picture that the host has after a history. -/
def hostView (turns : List Turn) : HostView := turns.foldl HostView.after HostView.blank

@[simp] theorem hostView_append_singleton (turns : List Turn) (t : Turn) :
    hostView (turns ++ [t]) = (hostView turns).after t := by
  rw [hostView, List.foldl_append]
  rfl

@[simp] theorem HostView.hear_append_activity (v : HostView) (out : List Output) :
    v.hear (out ++ [.activity]) = v.hear out := by
  rw [HostView.hear, List.foldl_append]
  rfl

/-! ## Tables that were cleared without a report -/

/-- The output is a report of this kind. -/
def Output.reports (t : Target) : Output → Bool
  | .report r => r.target = t
  | .activity => false

/-- The table of a target is cleared and the host not told of it, if that was so before (`wiped`) or the
    turn brings it about. A report of the same kind puts an end to it, and so does a new host. -/
def Turn.wipes (t : Target) (wiped : Bool) (turn : Turn) : Bool :=
  turn.resets || (wiped && !turn.opens && !turn.said.any (Output.reports t))

/-- The table of a target was cleared after the host had last heard of it. -/
def wiped (t : Target) (turns : List Turn) : Bool := turns.foldl (Turn.wipes t) false

@[simp] theorem wiped_append_singleton (t : Target) (turns : List Turn) (turn : Turn) :
    wiped t (turns ++ [turn]) = turn.wipes t (wiped t turns) := by
  rw [wiped, List.foldl_append]
  rfl

/-! ## Button bitmaps -/

/-- The button has a bit in the bitmap, usage 1 the lowest, and the bit is set. -/
def HasButton (buttons : UInt8) (usage : UInt16) : Prop :=
  1 ≤ usage.toNat ∧ usage.toNat ≤ Limits.mouseButtons
    ∧ buttons.toNat.testBit (usage.toNat - 1) = true

/-- A button has one bit. -/
theorem testBit_buttonBit {usage : UInt16} (h : Renderable .mouse usage) {i : Nat}
    (hi : i < Limits.mouseButtons) :
    (HoldTable.buttonBit usage).toNat.testBit i = true ↔ i + 1 = usage.toNat := by
  have hall : ∀ n i : Fin 8,
      (HoldTable.buttonBit (UInt16.ofNat (n + 1))).toNat.testBit i = true ↔ i.val + 1 = n.val + 1 := by
    decide
  obtain ⟨hlow, hhigh⟩ := h
  rw [Limits.mouseButtons] at hhigh
  have hbit := hall ⟨usage.toNat - 1, by omega⟩ ⟨i, hi⟩
  simp only [Nat.sub_add_cancel hlow, UInt16.ofNat_toNat] at hbit
  exact hbit

/-- A bit of a bitmap was there at the start, or a hold has put it there. -/
theorem testBit_foldl_buttonBit (holds : List Hold) (bits : UInt8) (i : Nat) :
    (holds.foldl (fun bits h => bits ||| HoldTable.buttonBit h.usage) bits).toNat.testBit i = true ↔
      bits.toNat.testBit i = true
        ∨ ∃ h ∈ holds, (HoldTable.buttonBit h.usage).toNat.testBit i = true := by
  induction holds generalizing bits with
  | nil => simp
  | cons h rest ih =>
    rw [List.foldl_cons, ih, UInt8.toNat_or, Nat.testBit_or, Bool.or_eq_true, or_assoc]
    simp only [List.mem_cons, exists_eq_or_imp]

/-- **The bitmap of a table has the buttons that are held, and no others**, if every usage in it has a bit. -/
theorem HoldTable.WellFormed.hasButton_buttonBits {table : HoldTable} (hwf : table.WellFormed)
    (hrenderable : ∀ h ∈ table.holds, Renderable .mouse h.usage) (usage : UInt16) :
    HasButton (HoldTable.buttonBits table.holds) usage ↔ (table.level? usage).isSome = true := by
  unfold HasButton HoldTable.buttonBits
  rw [testBit_foldl_buttonBit]
  constructor
  · rintro ⟨hlow, hhigh, hzero | ⟨h, hmem, hbit⟩⟩
    · simp at hzero
    · -- Different buttons have different bits.
      rw [testBit_buttonBit (hrenderable h hmem) (by omega), Nat.sub_add_cancel hlow] at hbit
      have husage : h.usage = usage := UInt16.toNat_inj.mp hbit.symm
      rw [← husage, hwf.mem_holds_iff_level?.mp hmem]
      rfl
  · intro hsome
    obtain ⟨l, hl⟩ := Option.isSome_iff_exists.mp hsome
    have hmem : ⟨usage, l⟩ ∈ table.holds := hwf.mem_holds_iff_level?.mpr hl
    obtain ⟨hlow, hhigh⟩ : Renderable .mouse usage := hrenderable _ hmem
    refine ⟨hlow, hhigh, .inr ⟨_, hmem, ?_⟩⟩
    rw [testBit_buttonBit ⟨hlow, hhigh⟩ (by omega), Nat.sub_add_cancel hlow]

theorem hasButton_buttonBits {table : HoldTable} (hfits : table.Fits .mouse) (usage : UInt16) :
    HasButton (HoldTable.buttonBits table.holds) usage ↔ (table.level? usage).isSome = true :=
  hfits.wellFormed.hasButton_buttonBits hfits.renderable usage

/-- A bitmap without a button is zero. -/
theorem eq_zero_of_forall_not_hasButton {buttons : UInt8} (h : ∀ usage, ¬ HasButton buttons usage) :
    buttons = 0 := by
  apply UInt8.toNat_inj.mp
  apply Nat.eq_of_testBit_eq
  intro i
  rw [UInt8.toNat_zero, Nat.zero_testBit]
  by_cases hi : i < 8
  · have hnat : (UInt16.ofNat (i + 1)).toNat = i + 1 := UInt16.toNat_ofNat_of_lt (by
      rw [UInt16.size]
      omega)
    have hnot := h (UInt16.ofNat (i + 1))
    unfold HasButton at hnot
    rw [hnat, Nat.add_sub_cancel, Limits.mouseButtons] at hnot
    exact Bool.eq_false_iff.mpr fun hbit => hnot ⟨by omega, by omega, hbit⟩
  · -- A byte has no bits beyond the eighth.
    exact Nat.testBit_lt_two_pow (Nat.lt_of_lt_of_le (UInt8.toNat_lt buttons)
      (Nat.pow_le_pow_right (by decide) (by omega)))

/-! ## Told or cleared -/

/-- The picture is right about the table of a target. -/
def HostView.Shows (v : HostView) (tables : PerTarget HoldTable) : Target → Prop
  | .keyboard => tables.keyboard.keyboardReport = .ok v.keyboard
  | .mouse => v.buttons = HoldTable.buttonBits tables.mouse.holds
  | .media => True

/-- The report tells what its table holds. -/
def Report.Tells (tables : PerTarget HoldTable) : Report → Prop
  | .keyboard r => tables.keyboard.keyboardReport = .ok r
  | .mouse r => r.buttons = HoldTable.buttonBits tables.mouse.holds

variable {tables tables' : PerTarget HoldTable} {v : HostView} {t s : Target}

/-- Only the table of the target itself matters. -/
theorem HostView.Shows.congr (h : v.Shows tables s) (hsame : tables'.get s = tables.get s) :
    v.Shows tables' s := by
  cases s with
  | keyboard =>
    show tables'.keyboard.keyboardReport = _
    rw [show tables'.keyboard = tables.keyboard from hsame]
    exact h
  | mouse =>
    show _ = HoldTable.buttonBits tables'.mouse.holds
    rw [show tables'.mouse = tables.mouse from hsame]
    exact h
  | media => trivial

/-- A report that tells the truth makes the picture of its target right, and leaves right what was
    right. -/
theorem Report.Tells.shows {r : Report} (h : r.Tells tables)
    (hs : v.Shows tables s ∨ r.target = s) : (v.see (.report r)).Shows tables s := by
  cases r with
  | keyboard k =>
    cases s with
    | keyboard => exact h
    | mouse => exact hs.resolve_right nofun
    | media => trivial
  | mouse m =>
    cases s with
    | keyboard => exact hs.resolve_right nofun
    | mouse => exact h
    | media => trivial

/-- The same of some reports one after the other. -/
theorem shows_hear {rs : List Report} (h : ∀ r ∈ rs, r.Tells tables)
    (hs : v.Shows tables s ∨ ∃ r ∈ rs, r.target = s) :
    (v.hear (rs.map Output.report)).Shows tables s := by
  induction rs generalizing v with
  | nil => exact hs.resolve_right nofun
  | cons r rest ih =>
    obtain ⟨hr, hrest⟩ := List.forall_mem_cons.mp h
    refine ih (v := v.see (.report r)) hrest ?_
    rcases hs with hs | ⟨r', hr', htarget⟩
    · exact .inl (hr.shows (.inl hs))
    · rcases List.mem_cons.mp hr' with rfl | hr'
      · exact .inl (hr.shows (.inr htarget))
      · exact .inr ⟨r', hr', htarget⟩

theorem mouseReport_tells {m : Motion} {r : MouseReport} (h : tables.mouse.mouseReport m = .ok r) :
    (Report.mouse r).Tells tables := by
  unfold HoldTable.mouseReport at h
  split at h
  · cases h
    rfl
  · cases h

/-- **The reports that are submitted together tell the truth, and one of them is of the target that they
    are submitted for.** -/
theorem Pipeline.Submits.tells {p q : Pipeline} {rs : List Report} (h : Submits tables p t q rs) :
    (∀ r ∈ rs, r.Tells tables) ∧ ∃ r ∈ rs, r.target = t := by
  induction h with
  | mouse hr hmore =>
    exact ⟨List.forall_mem_singleton.mpr (mouseReport_tells hr), _, List.mem_singleton_self _, rfl⟩
  | mousePair hr hs hnone =>
    refine ⟨?_, _, List.mem_cons_self, rfl⟩
    exact List.forall_mem_cons.mpr
      ⟨mouseReport_tells hr, List.forall_mem_singleton.mpr (mouseReport_tells hs)⟩
  | keyboard hk hmore =>
    exact ⟨List.forall_mem_singleton.mpr hk, _, List.mem_singleton_self _, rfl⟩
  | keyboardFirst hk hnone hmouse ih =>
    exact ⟨List.forall_mem_cons.mpr ⟨hk, ih.1⟩, _, List.mem_cons_self, rfl⟩

/-- **The invariant of the picture.** A table whose clearing was not told is vacant, and the picture is
    right about every other table. -/
def Agrees (tables : PerTarget HoldTable) (v : HostView) (cleared : Target → Bool) : Prop :=
  ∀ s, (cleared s = true → tables.get s = HoldTable.empty Limits.tablePlaces)
    ∧ (cleared s = false → v.Shows tables s)

/-- Nothing that is held agrees with nothing that was told. -/
theorem agrees_blank : Agrees vacantTables HostView.blank fun _ => false := by
  intro s
  refine ⟨nofun, ?_⟩
  intro _
  cases s with
  | keyboard => rfl
  | mouse => rfl
  | media => trivial

variable {cleared : Target → Bool}

/-- A change of one table that is reported at once keeps the agreement. -/
theorem Agrees.submit (h : Agrees tables v cleared) {p q : Pipeline} {rs : List Report}
    (hsub : Pipeline.Submits tables' p t q rs) (hother : ∀ s, s ≠ t → tables'.get s = tables.get s) :
    Agrees tables' (v.hear (rs.map Output.report))
      fun s => cleared s && !(rs.map Output.report).any (Output.reports s) := by
  obtain ⟨htells, r, hr, htarget⟩ := hsub.tells
  intro s
  dsimp only
  by_cases hs : ∃ r ∈ rs, r.target = s
  · -- A report of the target tells the table as it is now, whatever was told before.
    have hany : (rs.map Output.report).any (Output.reports s) = true := by
      simpa [Output.reports] using hs
    refine ⟨?_, fun _ => shows_hear htells (.inr hs)⟩
    intro hcleared
    rw [hany, Bool.not_true, Bool.and_false] at hcleared
    exact absurd hcleared Bool.false_ne_true
  · -- What is not reported was not changed, and what was right of it stays right.
    have hany : (rs.map Output.report).any (Output.reports s) = false := by
      rw [Bool.eq_false_iff]
      simpa [Output.reports] using hs
    have hsame : tables'.get s = tables.get s := hother s fun hst => hs ⟨r, hr, htarget.trans hst.symm⟩
    rw [hany, Bool.not_false, Bool.and_true, hsame]
    exact ⟨(h s).1, fun hcleared => shows_hear htells (.inl (((h s).2 hcleared).congr hsame))⟩

theorem get_set_of_ne (table : HoldTable) : ∀ s, s ≠ t → (tables.set t table).get s = tables.get s :=
  fun _ hs => PerTarget.get_set_ne tables table hs

/-- Going on keeps the agreement. -/
theorem Agrees.drain {a b : Aggregator} {l : List Pending} {out : List Output}
    (h : Agrees a.tables v cleared) (hdrain : a.DrainsTo l b out) :
    Agrees b.tables (v.hear out) fun s => cleared s && !out.any (Output.reports s) := by
  cases hdrain with
  | update hl hskip hupd hsub => exact h.submit hsub (get_set_of_ne _)
  | motion hskip hsub => exact h.submit hsub fun _ _ => rfl
  | idle hskip hrest => simpa [HostView.hear] using h

/-- What is said besides reports is nothing to the picture. -/
theorem Agrees.append_activity {out : List Output}
    (h : Agrees tables (v.hear out) fun s => cleared s && !out.any (Output.reports s)) :
    Agrees tables (v.hear (out ++ [Output.activity]))
      fun s => cleared s && !(out ++ [Output.activity]).any (Output.reports s) := by
  simpa [Output.reports] using h

/-- A reset clears every table and tells of none; otherwise an update that is put off changes none. -/
theorem Agrees.defers {a b : Aggregator} {e : Pending} {reset : Bool} (hshape : a.InShape)
    (h : Agrees a.tables v cleared) (hdefer : a.Defers e reset b) :
    Agrees b.tables v fun s => reset || cleared s := by
  cases hdefer with
  | kept => exact h
  | reset hnone =>
    intro s
    refine ⟨?_, fun hkept => absurd hkept (by simp)⟩
    intro _
    rw [hshape.map_clear, vacantTables, PerTarget.get_same]

/-! ## Histories -/

variable {layout : Layout} {window : UInt32} {turns : List Turn} {turn : Turn} {a b : Aggregator}

/-- In a turn that neither opens a session nor clears the tables, only what is said matters. -/
theorem Agrees.after (hopens : turn.opens = false) (hresets : turn.resets = false)
    (h : Agrees tables (v.hear turn.said) fun s => cleared s && !turn.said.any (Output.reports s)) :
    Agrees tables (v.after turn) fun s => turn.wipes s (cleared s) := by
  simpa [HostView.after, Turn.wipes, hopens, hresets] using h

theorem Turn.opens_of_isMotion (h : turn.input.isMotion = true) : turn.opens = false := by
  unfold Turn.opens
  cases hinput : turn.input <;> rw [hinput] at h <;> first | rfl | cases h

/-- **Every turn keeps the agreement**, on which nothing depends as long as no host listens. -/
theorem agrees_after (hsound : a.Sound) {input : Input} {now : UInt32} {out : List Output}
    (hstep : a.step input now = .ok (b, out)) (hup : b.phase ≠ .disconnected)
    (h : a.phase ≠ .disconnected → Agrees a.tables v cleared) :
    Agrees b.tables (v.after ⟨a, input, now, b, out⟩)
      fun s => Turn.wipes s (cleared s) ⟨a, input, now, b, out⟩ := by
  have hquiet : a.phase ≠ .disconnected →
      Agrees a.tables (v.hear []) fun s => cleared s && !([] : List Output).any (Output.reports s) := by
    intro hbefore
    simpa [HostView.hear] using h hbefore
  cases outcome_of_step hstep with
  | unbound hkey =>
    have hnone := Layout.updateOf?_of_lookup hkey
    exact .after rfl (Turn.resets_of_update?_eq_none (hnone _ now)) (hquiet hup)
  | ignored he hidle =>
    exact .after rfl (Turn.resets_of_idle hidle) (hquiet hup).append_activity
  | applied he hidle hupd hsub =>
    -- The report is of the table that has changed.
    have hbefore : a.phase ≠ .disconnected := by rw [hidle]; decide
    refine .after rfl (Turn.resets_of_idle hidle) (Agrees.append_activity ?_)
    exact (h hbefore).submit hsub (get_set_of_ne _)
  | @deferred key pressed _ e he hnotidle =>
    have hdefer := hsound.defers_defer e
    rw [hdefer.phase_eq] at hup
    have hresets := Turn.resets_of_update?_eq_some
      (t := ⟨a, .key key pressed, now, a.defer e, [.activity]⟩) he hnotidle
    have hopens : Turn.opens ⟨a, .key key pressed, now, a.defer e, [.activity]⟩ = false := rfl
    have hagrees := (h hup).defers hsound.toInShape hdefer
    simpa [HostView.after, HostView.hear, HostView.see, Turn.wipes, Output.reports, hopens, hresets]
      using hagrees
  | moved hmotion hidle hsub =>
    have hbefore : a.phase ≠ .disconnected := by rw [hidle]; decide
    refine .after (Turn.opens_of_isMotion hmotion) (Turn.resets_of_idle hidle) ?_
    exact ((h hbefore).submit hsub fun _ _ => rfl).append_activity
  | moving hmotion hnotidle =>
    have hnone := Layout.updateOf?_of_isMotion a.layout hmotion now
    exact .after (Turn.opens_of_isMotion hmotion) (Turn.resets_of_update?_eq_none hnone)
      (hquiet hup).append_activity
  | stray | started => exact .after rfl (Turn.resets_of_update?_eq_none rfl) (hquiet hup)
  | late hsome hdown => exact absurd hdown hup
  | delivered hsome hbefore hdrain =>
    have hgo := (h hbefore).drain hdrain
    exact .after rfl (Turn.resets_of_update?_eq_none rfl) hgo
  | connected hdown hdrain =>
    -- The session before has left nothing behind, in the tables or in the new host's picture.
    have hblank : Agrees (a.meeting now).tables HostView.blank fun _ => false := by
      rw [meeting, (hsound.disconnected hdown).1]
      exact agrees_blank
    have hopens : Turn.opens ⟨a, .link true, now, b, out⟩ = true := by simp [Turn.opens, hdown]
    have hresets : Turn.resets ⟨a, .link true, now, b, out⟩ = false :=
      Turn.resets_of_update?_eq_none rfl
    simpa [HostView.after, Turn.wipes, hopens, hresets] using hblank.drain hdrain
  | unmoved =>
    exact .after (by simp [Turn.opens, hup]) (Turn.resets_of_update?_eq_none rfl) (hquiet hup)
  | disconnected hbefore =>
    rw [disconnect, if_neg hbefore] at hup
    exact absurd rfl hup

/-- **A table is told to the host, or it was cleared after the host had last heard of it.** -/
theorem History.agrees (h : History layout window turns a) (hup : a.phase ≠ .disconnected) :
    Agrees a.tables (hostView turns) fun s => wiped s turns := by
  induction h with
  | new => exact absurd rfl hup
  | turn h hstep ih =>
    simp only [hostView_append_singleton, wiped_append_singleton]
    exact agrees_after h.sound hstep hup ih

/-- **When the host's picture is right.** While a host listens, the last keyboard report that it got is
    the one that the keyboard table would give now, and the last button bitmap has exactly the buttons of
    the mouse table, if and only if every table that was cleared after the host had last heard of it was
    told to be empty anyway. -/
theorem History.hostView_agrees_iff (h : History layout window turns a)
    (hup : a.phase ≠ .disconnected) :
    (a.tables.keyboard.keyboardReport = .ok (hostView turns).keyboard
        ∧ ∀ usage, HasButton (hostView turns).buttons usage
          ↔ (a.tables.mouse.level? usage).isSome = true)
      ↔ (wiped .keyboard turns = true → (hostView turns).keyboard = HostView.blank.keyboard)
        ∧ (wiped .mouse turns = true → (hostView turns).buttons = HostView.blank.buttons) := by
  have hagrees := h.agrees hup
  refine and_congr ?_ ?_
  · cases hwiped : wiped .keyboard turns with
    | true =>
      -- The table is vacant, so only a blank report could have told of it.
      rw [show a.tables.keyboard = _ from (hagrees .keyboard).1 hwiped]
      constructor
      · intro hreport _
        exact (Except.ok.inj hreport).symm
      · intro hblank
        rw [hblank rfl]
        rfl
    | false => exact iff_of_true ((hagrees .keyboard).2 hwiped) nofun
  · cases hwiped : wiped .mouse turns with
    | true =>
      rw [show a.tables.mouse = _ from (hagrees .mouse).1 hwiped]
      constructor
      · intro hbuttons _
        apply eq_zero_of_forall_not_hasButton
        intro usage hhas
        have hsome := (hbuttons usage).mp hhas
        simp [HoldTable.level?] at hsome
      · intro hblank usage
        rw [hblank rfl]
        simp [HasButton, HostView.blank, HoldTable.level?]
    | false =>
      refine iff_of_true ?_ nofun
      intro usage
      rw [show (hostView turns).buttons = _ from (hagrees .mouse).2 hwiped]
      exact hasButton_buttonBits (h.sound.tables .mouse) usage

/-- A press is reported; while its report is on the way another key goes down and up six times, so that
    the release of the first one finds the backlog full. -/
def overflowing : List (Input × UInt32) :=
  [(.ready, 0), (.link true, 0), (.key 4 true, 10)]
    ++ (List.range 12).map (fun n => (Input.key 5 (n % 2 = 0), UInt32.ofNat (11 + n)))
    ++ [(.key 4 false, 23), (.delivered .keyboard, 24)]

/-- The release that overflowed the backlog has cleared the table, and the host still believes that the
    key is down, although the link is idle. -/
theorem hostView_stale_of_overflowing :
    ∃ turns a, History Layout.standard 500 turns a ∧ turns.map Turn.stimulus = overflowing
      ∧ a.phase = .idle ∧ a.tables.keyboard.keyboardReport ≠ .ok (hostView turns).keyboard := by
  obtain ⟨turns, a, h, hinputs, hstate⟩ := exists_history Layout.standard 500 overflowing
    (fun turns a => a.phase = .idle
      && a.tables.keyboard.keyboardReport.toOption ≠ some (hostView turns).keyboard) (by decide +kernel)
  simp only [Bool.and_eq_true, decide_eq_true_eq] at hstate
  refine ⟨turns, a, h, hinputs, hstate.1, fun hreport => hstate.2 ?_⟩
  rw [hreport]
  rfl

/-- The next press makes the picture right again. -/
theorem hostView_agrees_iff_next_press :
    ∃ turns a, History Layout.standard 500 turns a
      ∧ turns.map Turn.stimulus = overflowing ++ [(.key 6 true, 30)]
      ∧ a.phase ≠ .disconnected
      ∧ a.tables.keyboard.keyboardReport = .ok (hostView turns).keyboard := by
  obtain ⟨turns, a, h, hinputs, hstate⟩ := exists_history Layout.standard 500
    (overflowing ++ [(.key 6 true, 30)])
    (fun turns a => a.phase ≠ .disconnected && !wiped .keyboard turns && !wiped .mouse turns)
    (by decide +kernel)
  simp only [Bool.and_eq_true, decide_eq_true_eq, Bool.not_eq_true'] at hstate
  obtain ⟨⟨hup, hkeyboard⟩, hmouse⟩ := hstate
  refine ⟨turns, a, h, hinputs, hup, ((h.hostView_agrees_iff hup).mpr ⟨?_, ?_⟩).1⟩
  · rw [hkeyboard]
    exact nofun
  · rw [hmouse]
    exact nofun

end Peripheral
