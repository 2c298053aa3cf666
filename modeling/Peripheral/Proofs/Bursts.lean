import Peripheral.Proofs.MotionCarried

/-!
# `Peripheral.Proofs.Bursts` — the reports that one report brings along

A report that is alone of its kind on the way is followed by a mouse report, which may be alone of its kind in
turn. Taken report by report this is a loop, and the counter that it reads is the one that the report has just
raised: at one before, it is not at one after, so a second mouse report is never followed by a third. What comes
out is known before the loop starts, from the two counters alone, and everything else that sending does is a sum
over the reports that came out.

## Contents
- `keyboardReport_eq_ok`, `mouseReport_eq_ok`: reports that can be rendered.
- `sendOne`, `chain?`: one report, and then mouse reports for as long as they are due.
- `chain?_eq_submit`: the loop ends, with the reports that are submitted together.
- `carry`: one report on its way; its counters and its motion over several of them.
- `burst`, `Renders.submit`: the reports, by kind and counters.
- `submit_burst`: all that sending does.
-/

namespace Peripheral

/-! ## Reports that can be rendered -/

namespace HoldTable

variable {table : HoldTable}

/-- A keyboard report is rendered if the usages that are held fit its bytes. -/
theorem keyboardReport_eq_ok (h : ∀ g ∈ table.holds, g.usage.toNat ≤ 255) :
    table.keyboardReport = .ok (KeyboardReport.ofKeys (table.listedKeys.map UInt16.toUInt8)) := by
  apply if_pos
  rw [List.all_eq_true]
  intro usage husage
  obtain ⟨g, hg, rfl⟩ := List.mem_map.mp husage
  exact decide_eq_true (h g (List.mem_reverse.mp (List.mem_of_mem_take hg)))

theorem exists_keyboardReport (h : ∀ g ∈ table.holds, g.usage.toNat ≤ 255) : ∃ r, table.keyboardReport = .ok r :=
  ⟨_, keyboardReport_eq_ok h⟩

/-- A mouse report is rendered if the usages that are held have bits. -/
theorem mouseReport_eq_ok (h : ∀ g ∈ table.holds, Renderable .mouse g.usage) (m : Motion) :
    table.mouseReport m = .ok ⟨buttonBits table.holds, Saturating.narrow m.dx, Saturating.narrow m.dy,
      Saturating.narrow m.wheel⟩ := by
  apply if_pos
  rw [List.all_eq_true]
  intro g hg
  obtain ⟨hlow, hhigh⟩ := h g hg
  simp [hlow, hhigh]

theorem exists_mouseReport (h : ∀ g ∈ table.holds, Renderable .mouse g.usage) (m : Motion) :
    ∃ r, table.mouseReport m = .ok r :=
  ⟨_, mouseReport_eq_ok h m⟩

end HoldTable

namespace Pipeline

variable {tables : PerTarget HoldTable} {p q : Pipeline} {t : Target} {bound : Nat}

/-! ## Report by report -/

/-- Render and count one report of a target. -/
def sendOne (p : Pipeline) (tables : PerTarget HoldTable) : Target → Except Fault (Pipeline × Report)
  | .keyboard => p.sendKeyboard tables
  | .mouse => p.sendMouse tables
  | .media => .error .mediaUnsupported

/-- Send a report, and mouse reports behind it for as long as the one just sent is alone of its kind on the way.
    Nothing comes of it if that takes more than `bound` reports. -/
def chain? (tables : PerTarget HoldTable) : Nat → Pipeline → Target → Option (Except Fault (Pipeline × List Report))
  | 0, _, _ => none
  | bound + 1, p, t =>
    match p.sendOne tables t with
    | .error fault => some (.error fault)
    | .ok (q, r) =>
      if q.inFlight.get t = 1 then
        (chain? tables bound q .mouse).map fun rest => rest.map fun (last, rs) => (last, r :: rs)
      else some (.ok (q, [r]))

/-- A report raises the counter of its target. -/
theorem inFlight_of_sendMouse {r : Report} (h : p.sendMouse tables = .ok (q, r)) :
    q.inFlight.mouse = Saturating.raise p.inFlight.mouse 1 := by
  obtain ⟨_, -, h⟩ := Fault.bind_eq_ok.mp h
  cases h
  rfl

/-- **The loop ends after two mouse reports**: the second one leaves its counter above one. -/
theorem chain?_mouse (hbound : 2 ≤ bound) : chain? tables bound p .mouse = some (p.submitMouse tables) := by
  obtain ⟨rest, rfl⟩ := Nat.exists_eq_add_of_le' hbound
  unfold chain? submitMouse
  show (match p.sendMouse tables with | .error fault => _ | .ok (q, r) => _) = _
  cases hfirst : p.sendMouse tables with
  | error fault => rfl
  | ok sent =>
    obtain ⟨q, r⟩ := sent
    show (if q.inFlight.mouse = 1 then _ else _) = some (if q.inFlight.mouse = 1 then _ else _)
    by_cases hone : q.inFlight.mouse = 1
    · rw [if_pos hone, if_pos hone]
      unfold chain?
      show Option.map _ (match q.sendMouse tables with | .error fault => _ | .ok (q, r) => _) = _
      cases hsecond : q.sendMouse tables with
      | error fault => rfl
      | ok sent =>
        obtain ⟨q', s⟩ := sent
        have hmore : q'.inFlight.get .mouse ≠ 1 := by
          intro hagain
          have hraise := inFlight_of_sendMouse hsecond
          rw [show q'.inFlight.mouse = 1 from hagain] at hraise
          rw [Saturating.raise_one_eq_one.mp hraise.symm] at hone
          exact absurd hone (by decide)
        dsimp only
        rw [if_neg hmore]
        rfl
    · rw [if_neg hone, if_neg hone]
      rfl

/-- **Sending report by report ends after three of them at most, with the reports that are submitted together.** -/
theorem chain?_eq_submit (hbound : 3 ≤ bound) (t : Target) :
    chain? tables bound p t = some (p.submit tables t) := by
  obtain ⟨rest, rfl⟩ := Nat.exists_eq_add_of_le' hbound
  cases t with
  | mouse => exact chain?_mouse (by omega)
  | media => rfl
  | keyboard =>
    unfold chain? submit submitKeyboard
    show (match p.sendKeyboard tables with | .error fault => _ | .ok (q, r) => _) = _
    cases hfirst : p.sendKeyboard tables with
    | error fault => rfl
    | ok sent =>
      obtain ⟨q, r⟩ := sent
      show (if q.inFlight.keyboard = 1 then _ else _) = some (if q.inFlight.keyboard = 1 then _ else _)
      by_cases hone : q.inFlight.keyboard = 1
      · rw [if_pos hone, if_pos hone, chain?_mouse (by omega)]
        cases q.submitMouse tables <;> rfl
      · rw [if_neg hone, if_neg hone]
        rfl

/-! ## Reports on their way -/

/-- A report goes on its way. A mouse report takes the motion that waits along. -/
def carry (p : Pipeline) : Report → Pipeline
  | .keyboard _ => p.launch .keyboard
  | .mouse _ => { p.launch .mouse with motion := .zero }

/-- Each counter is raised by the reports of its target. -/
theorem inFlight_foldl_carry (rs : List Report) (p : Pipeline) (u : Target) :
    (rs.foldl carry p).inFlight.get u
      = Saturating.raise (p.inFlight.get u) ((rs.map Report.target).count u) := by
  induction rs generalizing p with
  | nil => rw [List.map_nil, List.count_nil, Saturating.raise_zero, List.foldl_nil]
  | cons r rest ih =>
    have hone : (p.carry r).inFlight.get u = Saturating.raise (p.inFlight.get u) ([r.target].count u) := by
      cases r <;> cases u <;> simp [carry, launch, Report.target, PerTarget.get, PerTarget.set]
    rw [List.foldl_cons, ih, hone, Saturating.raise_raise, List.map_cons, ← List.count_append,
      List.singleton_append]

/-- The motion is gone once a mouse report is on its way. -/
theorem motion_foldl_carry (rs : List Report) (p : Pipeline) :
    (rs.foldl carry p).motion = if .mouse ∈ rs.map Report.target then .zero else p.motion := by
  induction rs generalizing p with
  | nil => rw [List.map_nil, if_neg List.not_mem_nil, List.foldl_nil]
  | cons r rest ih =>
    rw [List.foldl_cons, ih]
    cases r with
    | keyboard k => simp [carry, launch, Report.target]
    | mouse m => simp [carry, Report.target]

/-! ## Bursts -/

/-- A mouse report, and one without motion behind it if none was on the way. -/
def mouseBurst (p : Pipeline) (moving still : MouseReport) : List Report :=
  if p.inFlight.mouse = 0 then [.mouse moving, .mouse still] else [.mouse moving]

/-- The reports that a report of a target brings along: a keyboard report brings mouse reports if no other
    keyboard report was on the way. -/
def burst (p : Pipeline) (k : KeyboardReport) (moving still : MouseReport) : Target → List Report
  | .keyboard => .keyboard k :: if p.inFlight.keyboard = 0 then p.mouseBurst moving still else []
  | .mouse => p.mouseBurst moving still
  | .media => []

/-- What the tables have to tell: `k` of the keys, `moving` of the buttons and the motion that waits, and `still` of
    the buttons alone. -/
structure Renders (tables : PerTarget HoldTable) (motion : Motion) (k : KeyboardReport)
    (moving still : MouseReport) : Prop where
  keys : tables.keyboard.keyboardReport = .ok k
  moving : tables.mouse.mouseReport motion = .ok moving
  still : tables.mouse.mouseReport .zero = .ok still

theorem exists_renders (hkeys : ∀ g ∈ tables.keyboard.holds, g.usage.toNat ≤ 255)
    (hbuttons : ∀ g ∈ tables.mouse.holds, Renderable .mouse g.usage) (motion : Motion) :
    ∃ k moving still, Renders tables motion k moving still := by
  obtain ⟨k, hk⟩ := HoldTable.exists_keyboardReport hkeys
  obtain ⟨moving, hmoving⟩ := HoldTable.exists_mouseReport hbuttons motion
  obtain ⟨still, hstill⟩ := HoldTable.exists_mouseReport hbuttons .zero
  exact ⟨k, moving, still, hk, hmoving, hstill⟩

namespace Renders

variable {k : KeyboardReport} {moving still : MouseReport}

theorem submitMouse (h : Renders tables p.motion k moving still) :
    p.submitMouse tables = .ok ((p.mouseBurst moving still).foldl carry p, p.mouseBurst moving still) := by
  have hfirst : p.sendMouse tables = .ok (p.carry (.mouse moving), .mouse moving) :=
    Fault.bind_eq_ok.mpr ⟨moving, h.moving, rfl⟩
  have hsecond : (p.carry (.mouse moving)).sendMouse tables
      = .ok ((p.carry (.mouse moving)).carry (.mouse still), .mouse still) :=
    Fault.bind_eq_ok.mpr ⟨still, h.still, rfl⟩
  have hone : (p.carry (.mouse moving)).inFlight.mouse = 1 ↔ p.inFlight.mouse = 0 := Saturating.raise_one_eq_one
  refine Fault.bind_eq_ok.mpr ⟨_, hfirst, ?_⟩
  dsimp only
  unfold mouseBurst
  by_cases hnone : p.inFlight.mouse = 0
  · rw [if_pos (hone.mpr hnone), if_pos hnone]
    exact Fault.bind_eq_ok.mpr ⟨_, hsecond, rfl⟩
  · rw [if_neg fun h => hnone (hone.mp h), if_neg hnone]
    rfl

/-- **Reports are submitted as they are told by the counters**, and go on their way. -/
theorem submit (h : Renders tables p.motion k moving still) (ht : t ≠ .media) :
    p.submit tables t = .ok ((p.burst k moving still t).foldl carry p, p.burst k moving still t) := by
  cases t with
  | mouse => exact h.submitMouse
  | media => exact absurd rfl ht
  | keyboard =>
    have hfirst : p.sendKeyboard tables = .ok (p.carry (.keyboard k), .keyboard k) :=
      Fault.bind_eq_ok.mpr ⟨k, h.keys, rfl⟩
    have hone : (p.carry (.keyboard k)).inFlight.keyboard = 1 ↔ p.inFlight.keyboard = 0 :=
      Saturating.raise_one_eq_one
    refine Fault.bind_eq_ok.mpr ⟨_, hfirst, ?_⟩
    dsimp only
    unfold burst
    by_cases hnone : p.inFlight.keyboard = 0
    · rw [if_pos (hone.mpr hnone), if_pos hnone]
      -- The keyboard report leaves the motion and the mouse reports on the way as they are.
      have hrest : Renders tables (p.carry (.keyboard k)).motion k moving still := h
      exact Fault.bind_eq_ok.mpr ⟨_, hrest.submitMouse, rfl⟩
    · rw [if_neg fun h => hnone (hone.mp h), if_neg hnone]
      rfl

end Renders

theorem two_le_mouseBurst (p : Pipeline) (moving still : MouseReport) :
    2 ≤ p.inFlight.mouse.toNat + ((p.mouseBurst moving still).map Report.target).count .mouse := by
  unfold mouseBurst
  split
  · exact Nat.le_add_left _ _
  · next hne =>
    have hpos : p.inFlight.mouse.toNat ≠ 0 := fun h => hne (UInt32.toNat_inj.mp h)
    show 2 ≤ p.inFlight.mouse.toNat + 1
    omega

/-- Only one keyboard report goes out. -/
theorem count_keyboard_burst (p : Pipeline) (k : KeyboardReport) (moving still : MouseReport) :
    ((p.burst k moving still .keyboard).map Report.target).count .keyboard = 1 := by
  have hmouse : ((p.mouseBurst moving still).map Report.target).count .keyboard = 0 := by
    unfold mouseBurst
    split <;> rfl
  show ((Report.keyboard k :: if p.inFlight.keyboard = 0 then p.mouseBurst moving still else []).map
    Report.target).count .keyboard = 1
  split
  · rw [List.map_cons, show (Report.keyboard k).target = .keyboard from rfl, List.count_cons_self, hmouse]
  · rfl

/-- Two mouse reports at least are on the way behind a mouse report, and behind a keyboard report that is alone of
    its kind. -/
theorem two_le_inFlight_burst {k : KeyboardReport} {moving still : MouseReport}
    (h : t = .mouse ∨ t = .keyboard ∧ ((p.burst k moving still t).foldl carry p).inFlight.keyboard = 1) :
    2 ≤ ((p.burst k moving still t).foldl carry p).inFlight.mouse.toNat := by
  have hmouse := inFlight_foldl_carry (p.burst k moving still t) p .mouse
  have htwo := two_le_mouseBurst p moving still
  have hcount : ((p.burst k moving still t).map Report.target).count .mouse
      = ((p.mouseBurst moving still).map Report.target).count .mouse := by
    rcases h with rfl | ⟨rfl, hone⟩
    · rfl
    · have hkeyboard := inFlight_foldl_carry (p.burst k moving still .keyboard) p .keyboard
      rw [count_keyboard_burst] at hkeyboard
      have hnone : p.inFlight.keyboard = 0 := Saturating.raise_one_eq_one.mp (hkeyboard.symm.trans hone)
      unfold burst
      rw [if_pos hnone]
      rfl
  rw [show ((p.burst k moving still t).foldl carry p).inFlight.mouse = _ from hmouse, Saturating.toNat_raise, hcount]
  show 2 ≤ min 4294967295 (p.inFlight.mouse.toNat + _)
  omega

/-- **All that sending a report does**, whatever is on the way and whatever motion waits. Sending report by report
    comes to an end. A mouse report goes out, with a second one if none was on the way; a keyboard report goes out,
    and with it the mouse reports if no keyboard report was on the way. The first mouse report carries the motion
    that waits, cut to its fields, the second one carries none, and both carry the buttons that are held. The motion
    is gone if a mouse report went out, and waits on otherwise. The counters have been raised by the reports that
    went out, and two mouse reports at least are on the way behind a mouse report, or behind a keyboard report that
    is alone of its kind. -/
theorem submit_burst (p : Pipeline) (hkeys : ∀ g ∈ tables.keyboard.holds, g.usage.toNat ≤ 255)
    (hbuttons : ∀ g ∈ tables.mouse.holds, Renderable .mouse g.usage) :
    ∃ k moving still,
      tables.keyboard.keyboardReport = .ok k
        ∧ (∀ axis, moving.along axis = clamp16 (p.motion.along axis)) ∧ (∀ axis, still.along axis = 0)
        ∧ moving.buttons = HoldTable.buttonBits tables.mouse.holds
        ∧ still.buttons = HoldTable.buttonBits tables.mouse.holds
        ∧ ∀ t, t ≠ .media → ∃ q,
          p.submit tables t = .ok (q, p.burst k moving still t)
            ∧ (∀ bound, 3 ≤ bound → chain? tables bound p t = some (.ok (q, p.burst k moving still t)))
            ∧ q.motion = (if .mouse ∈ (p.burst k moving still t).map Report.target then .zero else p.motion)
            ∧ (∀ u, (q.inFlight.get u).toNat
                = min 4294967295
                    ((p.inFlight.get u).toNat + ((p.burst k moving still t).map Report.target).count u))
            ∧ (t = .mouse ∨ t = .keyboard ∧ q.inFlight.keyboard = 1 → 2 ≤ q.inFlight.mouse.toNat) := by
  obtain ⟨k, moving, still, hrenders⟩ := exists_renders hkeys hbuttons p.motion
  refine ⟨k, moving, still, hrenders.keys, HoldTable.along_mouseReport hrenders.moving, ?_,
    mouseReport_tells hrenders.moving, mouseReport_tells hrenders.still, ?_⟩
  · intro axis
    rw [HoldTable.along_mouseReport hrenders.still, Motion.along_zero]
    rfl
  · intro t ht
    have hsubmit := hrenders.submit ht
    refine ⟨_, hsubmit, ?_, motion_foldl_carry _ p, ?_, two_le_inFlight_burst⟩
    · intro bound hbound
      rw [chain?_eq_submit hbound, hsubmit]
    · intro u
      rw [inFlight_foldl_carry, Saturating.toNat_raise]

/-- The first key of a link on which nothing is on the way brings two mouse reports along, and the motion with
    the first of them. -/
theorem submit_burst_first_key :
    let tables : PerTarget HoldTable :=
      ⟨⟨[Hold.vacant, ⟨4, 2⟩, ⟨30, 1⟩], 2⟩, ⟨[Hold.vacant, Hold.vacant, ⟨2, 1⟩], 1⟩, HoldTable.empty 3⟩
    let p : Pipeline := ⟨.same 0, ⟨70000, -5, 0⟩⟩
    (∀ g ∈ tables.keyboard.holds, g.usage.toNat ≤ 255) ∧ (∀ g ∈ tables.mouse.holds, Renderable .mouse g.usage)
      ∧ ∃ q k moving still, p.submit tables .keyboard = .ok (q, [.keyboard k, .mouse moving, .mouse still])
        ∧ moving.along .x = 32767 ∧ still.along .x = 0 ∧ still.buttons = 2
        ∧ q.motion = .zero ∧ (q.inFlight.get .keyboard).toNat = 1 ∧ (q.inFlight.get .mouse).toNat = 2 := by
  intro tables p
  have hkeys : ∀ g ∈ tables.keyboard.holds, g.usage.toNat ≤ 255 := by decide
  have hbuttons : ∀ g ∈ tables.mouse.holds, Renderable .mouse g.usage := by decide
  obtain ⟨k, moving, still, -, hmoving, hstill, -, hbits, hall⟩ := submit_burst p hkeys hbuttons
  obtain ⟨q, hsubmit, -, hmotion, hcounts, -⟩ := hall .keyboard (by decide)
  exact ⟨hkeys, hbuttons, q, k, moving, still, hsubmit, hmoving .x, hstill .x, hbits, hmotion, hcounts .keyboard,
    hcounts .mouse⟩

end Pipeline

end Peripheral
