import Peripheral.Backlog.Lemmas
import Peripheral.HoldTable.Lemmas
import Peripheral.Proofs.History

/-!
# `Peripheral.Proofs.Moves` — what a step of the aggregator can do

The functions of the aggregator are read once, here. Each of them gets a relation that lists its
outcomes with the conditions under which they come about; whatever every step keeps is then proved by
cases of `Aggregator.Outcome`, and no later proof opens a function again. Only `Aggregator.defer` is left
for later, as what it does depends on the room that a backlog is known to have.

## Contents
- `Pipeline.Submits`: the reports that are submitted together.
- `Ignores`, `Aggregator.DrainsTo`: going on with the updates that wait.
- `Aggregator.Outcome`, `Aggregator.outcome_of_step`: one input.
- `Aggregator.isUp_of_step`: what brings a host and takes it away.
- `Aggregator.layout_of_step`, `Aggregator.window_of_step`: what no input changes.
-/

namespace Peripheral

@[simp] theorem PerTarget.set_get {α : Type} (p : PerTarget α) (t : Target) : p.set t (p.get t) = p := by
  cases t <;> rfl

/-! ## Submitting reports -/

/-- A counter that was raised by one stands at one if it stood at zero. -/
theorem Saturating.raise_one_eq_one {n : UInt32} : Saturating.raise n 1 = 1 ↔ n = 0 := by
  rw [← UInt32.toNat_inj, ← UInt32.toNat_inj, Saturating.toNat_raise]
  show min 4294967295 (n.toNat + 1) = 1 ↔ n.toNat = 0
  omega

/-- **The reports that are submitted together.** A report that is alone of its kind on the way is
    followed by a mouse report, and only the first mouse report carries motion. -/
inductive Pipeline.Submits (tables : PerTarget HoldTable) :
    Pipeline → Target → Pipeline → List Report → Prop
  | mouse {p : Pipeline} {r : MouseReport} (hr : tables.mouse.mouseReport p.motion = .ok r)
      (hmore : p.inFlight.mouse ≠ 0) :
      Submits tables p .mouse { p.launch .mouse with motion := .zero } [.mouse r]
  | mousePair {p : Pipeline} {r s : MouseReport} (hr : tables.mouse.mouseReport p.motion = .ok r)
      (hs : tables.mouse.mouseReport .zero = .ok s) (hnone : p.inFlight.mouse = 0) :
      Submits tables p .mouse ⟨p.inFlight.set .mouse 2, .zero⟩ [.mouse r, .mouse s]
  | keyboard {p : Pipeline} {k : KeyboardReport} (hk : tables.keyboard.keyboardReport = .ok k)
      (hmore : p.inFlight.keyboard ≠ 0) :
      Submits tables p .keyboard (p.launch .keyboard) [.keyboard k]
  | keyboardFirst {p q : Pipeline} {k : KeyboardReport} {rs : List Report}
      (hk : tables.keyboard.keyboardReport = .ok k) (hnone : p.inFlight.keyboard = 0)
      (hmouse : Submits tables (p.launch .keyboard) .mouse q rs) :
      Submits tables p .keyboard q (.keyboard k :: rs)

theorem Pipeline.submits_of_submitMouse {p q : Pipeline} {tables : PerTarget HoldTable}
    {rs : List Report} (h : p.submitMouse tables = .ok (q, rs)) : Submits tables p .mouse q rs := by
  obtain ⟨⟨p₁, r₁⟩, hfirst, h⟩ := Fault.bind_eq_ok.mp h
  obtain ⟨r, hr, hfirst⟩ := Fault.bind_eq_ok.mp hfirst
  cases hfirst
  dsimp only at h
  split at h
  · -- The first report was alone on the way, so a second one follows it.
    rename_i hone
    have hnone : p.inFlight.mouse = 0 := Saturating.raise_one_eq_one.mp hone
    obtain ⟨⟨p₂, r₂⟩, hsecond, h⟩ := Fault.bind_eq_ok.mp h
    obtain ⟨s, hs, hsecond⟩ := Fault.bind_eq_ok.mp hsecond
    cases hsecond
    cases h
    have htwo : Saturating.raise (Saturating.raise p.inFlight.mouse 1) 1 = 2 := by
      rw [hnone]; decide
    have hpair := Submits.mousePair hr hs hnone
    rw [← htwo] at hpair
    exact hpair
  · rename_i hone
    cases h
    exact .mouse hr fun hnone => hone (Saturating.raise_one_eq_one.mpr hnone)

/-- What `Pipeline.submit` does is one of the ways to submit reports. -/
theorem Pipeline.submits_of_submit {p q : Pipeline} {tables : PerTarget HoldTable} {t : Target}
    {rs : List Report} (h : p.submit tables t = .ok (q, rs)) : Submits tables p t q rs := by
  cases t with
  | keyboard =>
    obtain ⟨⟨p₁, r₁⟩, hfirst, h⟩ := Fault.bind_eq_ok.mp h
    obtain ⟨k, hk, hfirst⟩ := Fault.bind_eq_ok.mp hfirst
    cases hfirst
    dsimp only at h
    split at h
    · rename_i hone
      obtain ⟨⟨p₂, rs₂⟩, hrest, h⟩ := Fault.bind_eq_ok.mp h
      cases h
      exact .keyboardFirst hk (Saturating.raise_one_eq_one.mp hone) (submits_of_submitMouse hrest)
    · rename_i hone
      cases h
      exact .keyboard hk fun hnone => hone (Saturating.raise_one_eq_one.mpr hnone)
  | mouse => exact submits_of_submitMouse h
  | media => cases h

namespace Aggregator

theorem submits_of_report {a b : Aggregator} {t : Target} {out : List Output}
    (h : a.report t = .ok (b, out)) :
    ∃ p rs, Pipeline.Submits a.tables a.pipeline t p rs
      ∧ b = { a with pipeline := p, phase := .busy } ∧ out = rs.map Output.report := by
  obtain ⟨⟨p, rs⟩, hsub, h⟩ := Fault.bind_eq_ok.mp h
  cases h
  exact ⟨p, rs, Pipeline.submits_of_submit hsub, rfl, rfl⟩

/-! ## Going on with the updates that wait -/

/-- The update leaves the tables as they are: a release of a usage that is not held, or a press that
    finds no room. -/
def Ignores (tables : PerTarget HoldTable) (e : Pending) : Prop :=
  ∃ effect, effect ≠ .changed
    ∧ (tables.get e.target).update e.usage e.change = .ok (tables.get e.target, effect)

/-- An update that makes no report due leaves its table as it was. -/
theorem ignores_of_update {tables : PerTarget HoldTable} {e : Pending} {table : HoldTable}
    {effect : Effect} (h : (tables.get e.target).update e.usage e.change = .ok (table, effect))
    (hne : effect ≠ .changed) : table = tables.get e.target ∧ Ignores tables e := by
  have hsame : table = tables.get e.target := by
    rcases (HoldTable.update_cases h).2 with ⟨_, _, he, _⟩ | ⟨_, _, _, hsame⟩ | ⟨_, _, _, _, hsame⟩ |
      ⟨_, _, he, _⟩
    · exact absurd he hne
    · exact hsame
    · exact hsame
    · exact absurd he hne
  exact ⟨hsame, effect, hne, hsame ▸ h⟩

/-- Applying an update changes its table and makes a report due, or changes at most the count of
    presses without room. -/
theorem apply_cases {a b : Aggregator} {e : Pending} {due : Bool}
    (h : a.apply e.target e.usage e.change = .ok (b, due)) :
    (due = true ∧ ∃ table, (a.tables.get e.target).update e.usage e.change = .ok (table, .changed)
        ∧ b = { a with tables := a.tables.set e.target table }) ∨
      (due = false ∧ Ignores a.tables e
        ∧ ∃ n, b = { a with losses := { a.losses with tableFull := n } }) := by
  obtain ⟨⟨table, effect⟩, hupd, h⟩ := Fault.bind_eq_ok.mp h
  cases effect with
  | changed => cases h; exact .inl ⟨rfl, table, hupd, rfl⟩
  | unheld =>
    cases h
    obtain ⟨rfl, hign⟩ := ignores_of_update hupd (by simp)
    exact .inr ⟨rfl, hign, a.losses.tableFull, by simp⟩
  | noRoom =>
    cases h
    obtain ⟨rfl, hign⟩ := ignores_of_update hupd (by simp)
    exact .inr ⟨rfl, hign, Saturating.raise a.losses.tableFull 1, by simp [Losses.addTableFull]⟩

/-- **Going on with the updates `l`.** Those that change nothing are passed over. The first one that
    changes its table is reported, and the rest waits on; without one the backlog is empty, and motion
    that waits is reported, or the link is idle. -/
inductive DrainsTo (a : Aggregator) (l : List Pending) : Aggregator → List Output → Prop
  | update {skipped rest : List Pending} {e : Pending} {table : HoldTable} {p : Pipeline}
      {rs : List Report} {n : UInt32} (hl : l = skipped ++ e :: rest)
      (hskip : ∀ s ∈ skipped, Ignores a.tables s)
      (hupd : (a.tables.get e.target).update e.usage e.change = .ok (table, .changed))
      (hsub : Pipeline.Submits (a.tables.set e.target table) a.pipeline e.target p rs) :
      DrainsTo a l
        { a with
          tables := a.tables.set e.target table
          backlog := { a.backlog with pending := rest }
          phase := .busy
          pipeline := p
          losses := { a.losses with tableFull := n } }
        (rs.map Output.report)
  | motion {p : Pipeline} {rs : List Report} {n : UInt32} (hskip : ∀ s ∈ l, Ignores a.tables s)
      (hsub : Pipeline.Submits a.tables a.pipeline .mouse p rs) (hmoved : a.pipeline.motion ≠ .zero) :
      DrainsTo a l
        { a with
          backlog := a.backlog.clear
          phase := .busy
          pipeline := p
          losses := { a.losses with tableFull := n } }
        (rs.map Output.report)
  | idle {n : UInt32} (hskip : ∀ s ∈ l, Ignores a.tables s) (hrest : a.pipeline.motion = .zero) :
      DrainsTo a l
        { a with
          backlog := a.backlog.clear
          phase := .idle
          losses := { a.losses with tableFull := n } }
        []

theorem drainsTo_of_drainFrom {a b : Aggregator} {l : List Pending} {out : List Output}
    (h : a.drainFrom l = .ok (b, out)) : a.DrainsTo l b out := by
  induction l generalizing a with
  | nil =>
    unfold drainFrom at h
    dsimp only at h
    split at h
    · rename_i hpending
      obtain ⟨p, rs, hsub, rfl, rfl⟩ := submits_of_report h
      refine .motion (n := a.losses.tableFull) (by simp) hsub ?_
      intro hzero
      rw [Motion.isPending_eq_false.mpr hzero] at hpending
      cases hpending
    · rename_i hpending
      cases h
      exact .idle (n := a.losses.tableFull) (by simp) (Motion.isPending_eq_false.mp (by simpa using hpending))
  | cons e rest ih =>
    unfold drainFrom at h
    obtain ⟨⟨c, due⟩, happly, h⟩ := Fault.bind_eq_ok.mp h
    dsimp only at h
    rcases apply_cases happly with ⟨rfl, table, hupd, rfl⟩ | ⟨rfl, hign, n, rfl⟩
    · obtain ⟨p, rs, hsub, rfl, rfl⟩ := submits_of_report h
      exact .update (n := a.losses.tableFull) (List.nil_append _).symm (by simp) hupd hsub
    · -- The update has left no trace in the tables, so it joins those that were passed over.
      have hcons : ∀ {skipped}, (∀ s ∈ skipped, Ignores a.tables s) →
          ∀ s ∈ e :: skipped, Ignores a.tables s :=
        fun hskip => List.forall_mem_cons.mpr ⟨hign, hskip⟩
      cases ih h with
      | update hl hskip hupd hsub =>
        exact .update (by rw [hl]; rfl) (hcons hskip) hupd hsub
      | motion hskip hsub hmoved => exact .motion (hcons hskip) hsub hmoved
      | idle hskip hrest => exact .idle (hcons hskip) hrest

end Aggregator

/-! ## One input -/

/-- The update that an input asks for: the one of a key that is bound. -/
def Layout.updateOf? (l : Layout) (input : Input) (now : UInt32) : Option Pending :=
  match input with
  | .key key pressed =>
    (l.lookup key).map fun b => ⟨b.target, b.usage, if pressed then 1 else -1, now⟩
  | _ => none

/-- The input is motion of the pointer or the wheel. -/
def Input.isMotion : Input → Bool
  | .motion _ _ | .wheel _ => true
  | _ => false

/-- The kind of report that an input acknowledges. -/
def Input.acknowledged? : Input → Option Target
  | .delivered t => some t
  | _ => none

/-- The news of the link that an input brings. -/
def Input.link? : Input → Option Bool
  | .link up => some up
  | _ => none

/-- Motion is no news of the link. -/
theorem Input.link?_of_isMotion {input : Input} (h : input.isMotion = true) : input.link? = none := by
  cases input <;> first | rfl | cases h

/-- Motion neither acknowledges a report nor ends a session. -/
theorem Input.acknowledged?_of_isMotion {input : Input} (h : input.isMotion = true) :
    input.acknowledged? = none ∧ input ≠ .link false := by
  cases input with
  | motion | wheel => exact ⟨rfl, by simp⟩
  | _ => cases h

/-- Keys without a binding ask for no update. -/
theorem Layout.updateOf?_of_lookup {l : Layout} {key : UInt16} (h : l.lookup key = none)
    (pressed : Bool) (now : UInt32) : l.updateOf? (.key key pressed) now = none := by
  rw [Layout.updateOf?, h]
  rfl

/-- Motion asks for no update. -/
theorem Layout.updateOf?_of_isMotion (l : Layout) {input : Input} (h : input.isMotion = true)
    (now : UInt32) : l.updateOf? input now = none := by
  cases input <;> first | rfl | cases h

/-- The pipeline with the motion of an input added. -/
def Pipeline.feel (p : Pipeline) : Input → Pipeline
  | .motion dx dy => p.move dx dy
  | .wheel amount => p.turn amount
  | _ => p

namespace Aggregator

/-- The aggregator as it meets a host: motion from before is forgotten, and what is stale is purged. -/
def meeting (a : Aggregator) (now : UInt32) : Aggregator :=
  { a with
    pipeline := a.pipeline.forgetMotion
    backlog := a.backlog.purge now
    losses := a.losses.addPurged (a.backlog.purgeable now) }

/-- **What one input can do.** -/
inductive Outcome (a : Aggregator) : Input → UInt32 → Aggregator → List Output → Prop
  | unbound {key : UInt16} {pressed : Bool} {now : UInt32} (hkey : a.layout.lookup key = none) :
      Outcome a (.key key pressed) now { a with losses := a.losses.addUnbound } []
  | ignored {key : UInt16} {pressed : Bool} {now : UInt32} {e : Pending} {n : UInt32}
      (he : a.layout.updateOf? (.key key pressed) now = some e) (hidle : a.phase = .idle)
      (hign : Ignores a.tables e) :
      Outcome a (.key key pressed) now { a with losses := { a.losses with tableFull := n } }
        [.activity]
  | applied {key : UInt16} {pressed : Bool} {now : UInt32} {e : Pending} {table : HoldTable}
      {p : Pipeline} {rs : List Report}
      (he : a.layout.updateOf? (.key key pressed) now = some e) (hidle : a.phase = .idle)
      (hupd : (a.tables.get e.target).update e.usage e.change = .ok (table, .changed))
      (hsub : Pipeline.Submits (a.tables.set e.target table) a.pipeline e.target p rs) :
      Outcome a (.key key pressed) now
        { a with tables := a.tables.set e.target table, pipeline := p, phase := .busy }
        (rs.map Output.report ++ [.activity])
  | deferred {key : UInt16} {pressed : Bool} {now : UInt32} {e : Pending}
      (he : a.layout.updateOf? (.key key pressed) now = some e) (hbusy : a.phase ≠ .idle) :
      Outcome a (.key key pressed) now (a.defer e) [.activity]
  | moved {input : Input} {now : UInt32} {p : Pipeline} {rs : List Report}
      (hmotion : input.isMotion = true) (hidle : a.phase = .idle)
      (hsub : Pipeline.Submits a.tables (a.pipeline.feel input) .mouse p rs) :
      Outcome a input now { a with pipeline := p, phase := .busy }
        (rs.map Output.report ++ [.activity])
  | moving {input : Input} {now : UInt32} (hmotion : input.isMotion = true)
      (hbusy : a.phase ≠ .idle) :
      Outcome a input now { a with pipeline := a.pipeline.feel input } [.activity]
  | stray {t : Target} {now : UInt32} (hnone : a.pipeline.inFlight.get t = 0) :
      Outcome a (.delivered t) now a []
  | late {t : Target} {now : UInt32} (hsome : a.pipeline.inFlight.get t ≠ 0)
      (hdown : a.phase = .disconnected) :
      Outcome a (.delivered t) now
        { a with pipeline := (a.pipeline.acknowledge? t).getD a.pipeline } []
  | delivered {t : Target} {now : UInt32} {b : Aggregator} {out : List Output}
      (hsome : a.pipeline.inFlight.get t ≠ 0) (hup : a.phase ≠ .disconnected)
      (hdrain : a.DrainsTo a.backlog.pending b out) :
      Outcome a (.delivered t) now
        { b with pipeline := (b.pipeline.acknowledge? t).getD b.pipeline } out
  | connected {now : UInt32} {b : Aggregator} {out : List Output} (hdown : a.phase = .disconnected)
      (hdrain : (a.meeting now).DrainsTo (a.meeting now).backlog.pending b out) :
      Outcome a (.link true) now b out
  | unmoved {up : Bool} {now : UInt32} (hsame : a.phase = .disconnected ↔ up = false) :
      Outcome a (.link up) now a []
  | disconnected {now : UInt32} (hup : a.phase ≠ .disconnected) :
      Outcome a (.link false) now a.disconnect []
  | started {now : UInt32} (hnew : a.started = false) :
      Outcome a .ready now { a with started := true, backlog := a.backlog.clear } []

theorem outcome_of_key {a b : Aggregator} {key : UInt16} {pressed : Bool} {now : UInt32}
    {out : List Output} (h : a.key key pressed now = .ok (b, out)) :
    a.Outcome (.key key pressed) now b out := by
  unfold Aggregator.key at h
  split at h
  · rename_i hkey
    cases h
    exact .unbound hkey
  · rename_i bound hkey
    have he : a.layout.updateOf? (.key key pressed) now
        = some ⟨bound.target, bound.usage, if pressed then 1 else -1, now⟩ := by
      rw [Layout.updateOf?, hkey]; rfl
    obtain ⟨⟨c, o⟩, hupdate, h⟩ := Fault.bind_eq_ok.mp h
    cases h
    unfold Aggregator.update at hupdate
    split at hupdate
    · rename_i hidle
      obtain ⟨⟨d, due⟩, happly, hupdate⟩ := Fault.bind_eq_ok.mp hupdate
      dsimp only at hupdate
      rcases apply_cases happly with ⟨rfl, table, hupd, rfl⟩ | ⟨rfl, hign, n, rfl⟩
      · obtain ⟨p, rs, hsub, rfl, rfl⟩ := submits_of_report hupdate
        exact .applied he hidle hupd hsub
      · cases hupdate
        exact .ignored he hidle hign
    · rename_i hphase
      cases hupdate
      exact .deferred he (by simp [hphase])
    · rename_i hphase
      cases hupdate
      exact .deferred he (by simp [hphase])

/-- Motion is added to what waits, and reported if the link is idle. -/
theorem step_of_isMotion (a : Aggregator) {input : Input} (hmotion : input.isMotion = true) (now : UInt32) :
    a.step input now = ({ a with pipeline := a.pipeline.feel input } : Aggregator).reportMotion
      >>= fun r => .ok (r.1, r.2 ++ [.activity]) := by
  cases input with
  | motion | wheel => rfl
  | _ => cases hmotion

theorem outcome_of_motion {a b : Aggregator} {input : Input} {now : UInt32} {out : List Output}
    (hmotion : input.isMotion = true)
    (h : ({ a with pipeline := a.pipeline.feel input } : Aggregator).reportMotion = .ok (b, out)) :
    a.Outcome input now b (out ++ [.activity]) := by
  unfold reportMotion at h
  split at h
  · rename_i hidle
    obtain ⟨p, rs, hsub, rfl, rfl⟩ := submits_of_report h
    exact .moved hmotion hidle hsub
  · rename_i hphase
    cases h
    exact .moving hmotion (by simp [show a.phase = .disconnected from hphase])
  · rename_i hphase
    cases h
    exact .moving hmotion (by simp [show a.phase = .busy from hphase])

theorem outcome_of_delivered {a b : Aggregator} {t : Target} {now : UInt32} {out : List Output}
    (h : a.delivered t = .ok (b, out)) : a.Outcome (.delivered t) now b out := by
  unfold Aggregator.delivered at h
  split at h
  · rename_i hnone
    cases h
    exact .stray hnone
  · rename_i hsome
    obtain ⟨⟨c, o⟩, hresume, h⟩ := Fault.bind_eq_ok.mp h
    cases h
    unfold resume at hresume
    split at hresume
    · rename_i hdown
      cases hresume
      exact .late hsome hdown
    · rename_i hup
      exact .delivered hsome hup (drainsTo_of_drainFrom hresume)

/-- **Every step is one of the outcomes.** -/
theorem outcome_of_step {a b : Aggregator} {input : Input} {now : UInt32} {out : List Output}
    (h : a.step input now = .ok (b, out)) : a.Outcome input now b out := by
  cases input with
  | key key pressed => exact outcome_of_key h
  | motion | wheel =>
    rw [step_of_isMotion a rfl] at h
    obtain ⟨⟨c, o⟩, hmotion, h⟩ := Fault.bind_eq_ok.mp h
    cases h
    exact outcome_of_motion rfl hmotion
  | delivered t => exact outcome_of_delivered h
  | link up =>
    cases up with
    | true =>
      simp only [step, connect] at h
      split at h
      · rename_i hdown
        exact .connected hdown (drainsTo_of_drainFrom h)
      · rename_i hup
        cases h
        exact .unmoved (by simp [hup])
    | false =>
      cases h
      by_cases hdown : a.phase = .disconnected
      · rw [disconnect, if_pos hdown]
        exact .unmoved (by simp [hdown])
      · exact .disconnected hdown
  | ready =>
    obtain ⟨c, hstart, h⟩ := Fault.bind_eq_ok.mp h
    cases h
    unfold start at hstart
    split at hstart
    · cases hstart
    · rename_i hnew
      cases hstart
      exact .started (by simpa using hnew)

/-! ## What a step leaves alone -/

/-- Going on leaves the host where it is. -/
theorem DrainsTo.ne_disconnected {a b : Aggregator} {l : List Pending} {out : List Output}
    (h : a.DrainsTo l b out) : b.phase ≠ .disconnected := by
  cases h <;> simp

/-- A host listens. -/
def isUp (a : Aggregator) : Bool := a.phase ≠ .disconnected

/-- **Only news of the link takes a host away or brings one.** -/
theorem isUp_of_step {a b : Aggregator} {input : Input} {now : UInt32} {out : List Output}
    (h : a.step input now = .ok (b, out)) : b.isUp = input.link?.getD a.isUp := by
  cases outcome_of_step h with
  | applied he hidle hupd hsub =>
    show true = a.isUp
    rw [isUp, hidle]
    rfl
  | moved hmotion hidle hsub =>
    rw [Input.link?_of_isMotion hmotion]
    show true = a.isUp
    rw [isUp, hidle]
    rfl
  | moving hmotion hbusy =>
    rw [Input.link?_of_isMotion hmotion]
    rfl
  | delivered hsome hup hdrain =>
    show isUp _ = a.isUp
    rw [isUp, isUp, decide_eq_true hdrain.ne_disconnected, decide_eq_true hup]
  | connected hdown hdrain => exact decide_eq_true hdrain.ne_disconnected
  | @unmoved up _ hsame =>
    show a.isUp = up
    cases up <;> simpa [isUp] using hsame
  | disconnected hup =>
    rw [disconnect, if_neg hup]
    rfl
  | _ => rfl

theorem DrainsTo.layout_eq {a b : Aggregator} {l : List Pending} {out : List Output}
    (h : a.DrainsTo l b out) : b.layout = a.layout := by
  cases h <;> rfl

/-- The layout never changes. -/
theorem layout_of_step {a b : Aggregator} {input : Input} {now : UInt32} {out : List Output}
    (h : a.step input now = .ok (b, out)) : b.layout = a.layout := by
  cases outcome_of_step h with
  | delivered hsome hup hdrain => exact hdrain.layout_eq
  | connected hdown hdrain => exact hdrain.layout_eq
  | disconnected hup => rw [disconnect, if_neg hup]
  | _ => rfl

theorem DrainsTo.window_eq {a b : Aggregator} {l : List Pending} {out : List Output}
    (h : a.DrainsTo l b out) : b.backlog.window = a.backlog.window := by
  cases h <;> rfl

/-- The window never changes. -/
theorem window_of_step {a b : Aggregator} {input : Input} {now : UInt32} {out : List Output}
    (h : a.step input now = .ok (b, out)) : b.backlog.window = a.backlog.window := by
  cases outcome_of_step h with
  | deferred he hbusy => exact a.backlog.window_store _ _
  | delivered hsome hup hdrain => exact hdrain.window_eq
  | connected hdown hdrain => exact hdrain.window_eq
  | disconnected hup =>
    rw [disconnect, if_neg hup]
    rfl
  | _ => rfl

end Aggregator

/-- Histories keep to their layout. -/
theorem History.layout_eq {layout : Layout} {window : UInt32} {turns : List Turn} {a : Aggregator}
    (h : History layout window turns a) : a.layout = layout := by
  induction h with
  | new => rfl
  | turn h hstep ih => exact (Aggregator.layout_of_step hstep).trans ih

/-- Histories keep to their window. -/
theorem History.window_eq {layout : Layout} {window : UInt32} {turns : List Turn} {a : Aggregator}
    (h : History layout window turns a) : a.backlog.window = window := by
  induction h with
  | new => rfl
  | turn h hstep ih => exact (Aggregator.window_of_step hstep).trans ih

end Peripheral
