import Peripheral.Proofs.History

/-!
# `Peripheral.Proofs.ClockShift` — only differences of times matter

The clock counts milliseconds in a word and wraps after seven weeks. Nobody should notice when it does. A time is
never looked at by itself: it is stored, it has another one taken from it, or the window is added to it. So if
all the times of a run come later by the same amount, modulo the range of the clock, then the run is the same but
for the times of the updates that wait, which come later by that amount as well.

## Contents
- `Pending.later`, `Backlog.later`, `Aggregator.later`, `Turn.later`: the same, but at a later time.
- `staleCount_later`, `closedCount_later`, `store_later`: what is stale stays stale.
- `Backlog.Operation`, `performAll_later`: operations on a backlog.
- `step_later`, `record_later`: the inputs of an aggregator.
- `clock_wrap_unseen`: runs and operations, from any time on.
-/

namespace Peripheral

variable (k : UInt32)

/-! ## Later times -/

/-- The update, had it come `k` milliseconds later. -/
def Pending.later (e : Pending) : Pending := { e with time := e.time + k }

/-- The backlog, had all that waits come `k` milliseconds later. -/
def Backlog.later (b : Backlog) : Backlog := { b with pending := b.pending.map (Pending.later k) }

/-- The aggregator, had all that waits come `k` milliseconds later. -/
def Aggregator.later (a : Aggregator) : Aggregator := { a with backlog := a.backlog.later k }

/-- The turn, had it and all that waits come `k` milliseconds later. What was said to it stays. -/
def Turn.later (t : Turn) : Turn := ⟨t.before.later k, t.input, t.now + k, t.after.later k, t.said⟩

/-! ## Stale and closed prefixes -/

/-- **Ages are differences of times.** -/
@[simp] theorem Pending.age_later (e : Pending) (now : UInt32) :
    (e.later k).age (now + k) = e.age now := by
  show now + k - (e.time + k) = now - e.time
  grind

@[simp] theorem Pending.isPress_later (e : Pending) : (e.later k).isPress = e.isPress := rfl

@[simp] theorem Pending.sameUsage_later (e f : Pending) :
    (e.later k).sameUsage (f.later k) = e.sameUsage f := rfl

/-- What is stale at a time is stale later if it came later. -/
theorem staleCount_later (window now : UInt32) (l : List Pending) :
    staleCount window (now + k) (l.map (Pending.later k)) = staleCount window now l := by
  induction l with
  | nil => rfl
  | cons e rest ih => rw [List.map_cons, staleCount, staleCount, Pending.age_later, ih]

theorem runningLevels_later (e : Pending) (level : Int) (l : List Pending) :
    runningLevels (e.later k) level (l.map (Pending.later k)) = runningLevels e level l := by
  induction l generalizing level with
  | nil => rfl
  | cons f rest ih =>
    rw [List.map_cons, runningLevels, runningLevels, Pending.sameUsage_later, ih, ih]
    rfl

/-- Pairs do not depend on times at all. -/
theorem pairDistance?_later (e : Pending) (l : List Pending) :
    pairDistance? (e.later k) (l.map (Pending.later k)) = pairDistance? e l := by
  unfold pairDistance?
  rw [← runningLevels_later k e]
  rfl

theorem closedFrom_later (pos : Nat) (reach : Option Nat) (closed : Nat) (l : List Pending) :
    closedFrom pos reach closed (l.map (Pending.later k)) = closedFrom pos reach closed l := by
  induction l generalizing pos reach closed with
  | nil => rfl
  | cons e rest ih =>
    rw [List.map_cons, closedFrom, closedFrom, Pending.isPress_later, pairDistance?_later]
    simp only [ih]

theorem closedCount_later (l : List Pending) :
    closedCount (l.map (Pending.later k)) = closedCount l :=
  closedFrom_later k 0 (some 0) 0 l

/-! ## The backlog -/

namespace Backlog

variable (b : Backlog) (now : UInt32)

@[simp] theorem isFull_later : (b.later k).isFull = b.isFull := by
  show decide (b.capacity ≤ (b.pending.map (Pending.later k)).length) = _
  rw [List.length_map]
  rfl

@[simp] theorem clear_later : (b.later k).clear = b.clear.later k := rfl

/-- A purge drops as many updates later. -/
@[simp] theorem purgeable_later : (b.later k).purgeable (now + k) = b.purgeable now := by
  show closedCount ((b.pending.map (Pending.later k)).take
    (staleCount b.window (now + k) (b.pending.map (Pending.later k)))) = _
  rw [staleCount_later, ← List.map_take, closedCount_later]
  rfl

@[simp] theorem purge_later : (b.later k).purge (now + k) = (b.purge now).later k := by
  unfold purge
  rw [purgeable_later]
  show mk _ _ ((b.pending.map (Pending.later k)).drop (b.purgeable now)) = _
  rw [← List.map_drop]
  rfl

/-- What ages first does so later. -/
theorem ageing?_later : (b.later k).ageing? = b.ageing?.map fun expiry => expiry + k := by
  have hexpiries : (b.later k).pending.map (fun e => e.time + b.window)
      = (b.pending.map fun e => e.time + b.window).map fun expiry => expiry + k := by
    show (b.pending.map (Pending.later k)).map _ = _
    rw [List.map_map, List.map_map]
    apply List.map_congr_left
    intro e _
    show e.time + k + b.window = e.time + b.window + k
    grind
  unfold ageing?
  show ((b.later k).pending.map fun e => e.time + b.window).find? _ = _
  rw [hexpiries, List.find?_map]
  simp only [Function.comp_def, purgeable_later]

theorem makeRoom_later (ageing : Bool) :
    (b.later k).makeRoom (now + k) ageing
      = ((b.makeRoom now ageing).1.later k, (b.makeRoom now ageing).2) := by
  have hage : (if ageing then ((b.purge now).later k).ageing? else none)
      = (if ageing then (b.purge now).ageing? else none).map fun expiry => expiry + k := by
    cases ageing with
    | true => exact ageing?_later k (b.purge now)
    | false => rfl
  unfold makeRoom
  simp only [purgeable_later, purge_later, isFull_later, hage]
  split
  · cases (if ageing then (b.purge now).ageing? else none) with
    | none => rfl
    | some expiry => simp
  · rfl

/-- **Storing an update does the same later.** -/
theorem store_later (e : Pending) (ageing : Bool) :
    (b.later k).store (e.later k) ageing = ((b.store e ageing).1.later k, (b.store e ageing).2) := by
  unfold store
  rw [show (e.later k).time = e.time + k from rfl, makeRoom_later]
  generalize b.makeRoom e.time ageing = made
  obtain ⟨c, purged, reset⟩ := made
  dsimp only
  rw [isFull_later]
  split
  · rfl
  · show (mk _ _ (c.pending.map (Pending.later k) ++ [e].map (Pending.later k)), _) = _
    rw [← List.map_append]
    rfl

/-! ## Operations -/

/-- What can be done with a backlog. -/
inductive Operation
  /-- Store an update. -/
  | store (e : Pending) (ageing : Bool)
  /-- Drop the stale updates that can go. -/
  | purge (now : UInt32)
  /-- Take the oldest update. -/
  | next
  /-- Drop everything. -/
  | clear

/-- What an operation answers. -/
inductive Answer
  | stored (receipt : Receipt)
  | purged (count : Nat)
  | taken (e : Option Pending)
  | cleared

/-- Do one operation. -/
def perform (b : Backlog) : Operation → Backlog × Answer
  | .store e ageing => ((b.store e ageing).1, .stored (b.store e ageing).2)
  | .purge now => (b.purge now, .purged (b.purgeable now))
  | .next =>
    match b.next? with
    | some (e, c) => (c, .taken (some e))
    | none => (b, .taken none)
  | .clear => (b.clear, .cleared)

/-- Do operations one after the other, and keep the backlog and the answer after each of them. -/
def performAll (b : Backlog) : List Operation → List (Backlog × Answer)
  | [] => []
  | op :: rest => b.perform op :: (b.perform op).1.performAll rest

/-- The operation at a later time. -/
def Operation.later : Operation → Operation
  | .store e ageing => .store (e.later k) ageing
  | .purge now => .purge (now + k)
  | .next => .next
  | .clear => .clear

/-- The answer, had the update that was taken come later. -/
def Answer.later : Answer → Answer
  | .taken e => .taken (e.map (Pending.later k))
  | answer => answer

/-- **An operation does the same later**, and so it answers. -/
theorem perform_later (op : Operation) :
    (b.later k).perform (op.later k) = ((b.perform op).1.later k, (b.perform op).2.later k) := by
  cases op with
  | store e ageing =>
    show (((b.later k).store (e.later k) ageing).1, Answer.stored ((b.later k).store (e.later k) ageing).2) = _
    rw [store_later]
    rfl
  | purge now =>
    show ((b.later k).purge (now + k), Answer.purged ((b.later k).purgeable (now + k))) = _
    rw [purge_later, purgeable_later]
    rfl
  | next =>
    obtain ⟨capacity, window, pending⟩ := b
    cases pending <;> rfl
  | clear => rfl

/-- So do any number of operations. -/
theorem performAll_later (ops : List Operation) :
    (b.later k).performAll (ops.map (Operation.later k))
      = (b.performAll ops).map fun r => (r.1.later k, r.2.later k) := by
  induction ops generalizing b with
  | nil => rfl
  | cons op rest ih =>
    rw [List.map_cons, performAll, performAll, List.map_cons, perform_later, ih]

end Backlog

/-! ## The aggregator -/

namespace Aggregator

variable (a : Aggregator) (now : UInt32)

@[simp] theorem layout_later : (a.later k).layout = a.layout := rfl

@[simp] theorem phase_later : (a.later k).phase = a.phase := rfl

@[simp] theorem pipeline_later : (a.later k).pipeline = a.pipeline := rfl

/-- A result, had all that waits come `k` milliseconds later. -/
def laterResult {α : Type} (r : Aggregator × α) : Aggregator × α := (r.1.later k, r.2)

theorem report_later (t : Target) : (a.later k).report t = laterResult k <$> a.report t := by
  unfold report
  rw [map_bind]
  rfl

theorem apply_later (t : Target) (usage : UInt16) (change : Int16) :
    (a.later k).apply t usage change = laterResult k <$> a.apply t usage change := by
  unfold apply
  rw [map_bind]
  apply bind_congr
  rintro ⟨table, effect⟩
  cases effect <;> rfl

/-- Going on does the same later, whatever waits. -/
theorem drainFrom_later (l : List Pending) :
    (a.later k).drainFrom (l.map (Pending.later k)) = laterResult k <$> a.drainFrom l := by
  induction l generalizing a with
  | nil =>
    have hreport := report_later k { a with backlog := a.backlog.clear, phase := .idle } .mouse
    rw [List.map_nil, drainFrom, drainFrom]
    dsimp only
    rw [pipeline_later]
    split
    · exact hreport
    · rfl
  | cons e rest ih =>
    have happly := apply_later k { a with backlog := { a.backlog with pending := rest } } e.target e.usage
      e.change
    rw [List.map_cons, drainFrom, drainFrom, map_bind]
    show apply (Aggregator.later k { a with backlog := { a.backlog with pending := rest } }) e.target e.usage
      e.change >>= _ = _
    rw [happly, bind_map_left]
    apply bind_congr
    rintro ⟨c, due⟩
    cases due with
    | true => exact c.report_later k e.target
    | false => exact ih c

theorem drain_later : (a.later k).drain = laterResult k <$> a.drain :=
  drainFrom_later k a a.backlog.pending

theorem applyNow_later (e : Pending) :
    (a.later k).applyNow (e.later k) = laterResult k <$> a.applyNow e := by
  unfold applyNow
  show (a.later k).apply e.target e.usage e.change >>= _ = _
  rw [apply_later, bind_map_left, map_bind]
  apply bind_congr
  rintro ⟨c, due⟩
  cases due with
  | true => exact c.report_later k e.target
  | false => rfl

/-- What is put off later drops and gives up the same. -/
theorem defer_later (e : Pending) : (a.later k).defer (e.later k) = (a.defer e).later k := by
  have hstore : (a.later k).backlog.store (e.later k) ((a.later k).phase = .disconnected) = _ :=
    Backlog.store_later k a.backlog e (a.phase = .disconnected)
  unfold defer
  rw [hstore]
  rfl

theorem update_later (e : Pending) :
    (a.later k).update (e.later k) = laterResult k <$> a.update e := by
  unfold update
  rw [phase_later, defer_later, applyNow_later]
  cases a.phase <;> rfl

theorem key_later (key : UInt16) (pressed : Bool) :
    (a.later k).key key pressed (now + k) = laterResult k <$> a.key key pressed now := by
  unfold Aggregator.key
  rw [layout_later]
  cases a.layout.lookup key with
  | none => rfl
  | some b =>
    dsimp only
    show (a.later k).update (Pending.later k ⟨b.target, b.usage, if pressed then 1 else -1, now⟩) >>= _ = _
    rw [update_later, bind_map_left, map_bind]
    rfl

theorem reportMotion_later : (a.later k).reportMotion = laterResult k <$> a.reportMotion := by
  unfold reportMotion
  rw [phase_later, report_later]
  cases a.phase <;> rfl

/-- The host that begins to listen finds the same left to replay. -/
theorem connect_later : (a.later k).connect (now + k) = laterResult k <$> a.connect now := by
  have hpurge : (a.later k).backlog.purge (now + k) = (a.backlog.purge now).later k :=
    a.backlog.purge_later k now
  have hcount : (a.later k).backlog.purgeable (now + k) = a.backlog.purgeable now :=
    a.backlog.purgeable_later k now
  unfold connect
  rw [phase_later, hpurge, hcount]
  split
  · exact drain_later k
      { a with
        pipeline := a.pipeline.forgetMotion
        backlog := a.backlog.purge now
        losses := a.losses.addPurged (a.backlog.purgeable now) }
  · rfl

theorem disconnect_later : (a.later k).disconnect = a.disconnect.later k := by
  unfold disconnect
  rw [phase_later]
  split <;> rfl

theorem delivered_later (t : Target) :
    (a.later k).delivered t = laterResult k <$> a.delivered t := by
  have hresume : (a.later k).resume = laterResult k <$> a.resume := by
    unfold resume
    rw [phase_later]
    split
    · rfl
    · exact drain_later k a
  unfold Aggregator.delivered
  rw [pipeline_later]
  split
  · rfl
  · rw [hresume, bind_map_left, map_bind]
    rfl

theorem start_later : (a.later k).start = Aggregator.later k <$> a.start := by
  unfold start
  show (if a.started then _ else _) = _
  split <;> rfl

/-- **A step does the same later.** -/
theorem step_later (input : Input) :
    (a.later k).step input (now + k) = laterResult k <$> a.step input now := by
  have hmotion : ∀ c : Aggregator, ((c.later k).reportMotion >>= fun r => pure (r.1, r.2 ++ [Output.activity]))
      = laterResult k <$> (c.reportMotion >>= fun r => pure (r.1, r.2 ++ [Output.activity])) := by
    intro c
    rw [reportMotion_later, bind_map_left, map_bind]
    rfl
  cases input with
  | key key pressed => exact key_later k a now key pressed
  | motion dx dy => exact hmotion { a with pipeline := a.pipeline.move dx dy }
  | wheel amount => exact hmotion { a with pipeline := a.pipeline.turn amount }
  | delivered t => exact delivered_later k a t
  | link up =>
    cases up with
    | true => exact connect_later k a now
    | false =>
      show (Except.ok ((a.later k).disconnect, []) : Except Fault (Aggregator × List Output)) = _
      rw [disconnect_later]
      rfl
  | ready =>
    show (a.later k).start >>= _ = _
    rw [start_later, bind_map_left]
    show _ = laterResult k <$> (a.start >>= _)
    rw [map_bind]
    rfl

/-- **A run does the same later**, turn by turn, and faults where it would have. -/
theorem record_later (inputs : List (Input × UInt32)) :
    (a.later k).record (inputs.map fun i => (i.1, i.2 + k))
      = (fun r => (r.1.map (Turn.later k), r.2.later k)) <$> a.record inputs := by
  induction inputs generalizing a with
  | nil => rfl
  | cons i rest ih =>
    obtain ⟨input, now⟩ := i
    rw [List.map_cons]
    unfold record
    dsimp only
    rw [step_later]
    cases a.step input now with
    | error fault => rfl
    | ok r =>
      obtain ⟨b, out⟩ := r
      show Except.map (fun r => (⟨a.later k, input, now + k, b.later k, out⟩ :: r.1, r.2))
          ((b.later k).record (rest.map fun i => (i.1, i.2 + k)))
        = (fun r => (r.1.map (Turn.later k), r.2.later k))
          <$> Except.map (fun r => (⟨a, input, now, b, out⟩ :: r.1, r.2)) (b.record rest)
      rw [ih]
      cases b.record rest <;> rfl

end Aggregator

/-- **The wrap of the clock is not seen.** Let all the times of a run come later by any amount, modulo the range
    of the clock. Then the run is the same, turn by turn: it says the same, it leaves the same phase, tables,
    reports on the way, motion and losses, and what waits is the same but for its times, which are later by
    that amount; if it faults, it faults there too. So it is with operations on a backlog, whatever waits in it
    and however much room it has: backlogs and answers are the same, but for the times of updates. -/
theorem clock_wrap_unseen (layout : Layout) (window : UInt32) :
    (∀ inputs : List (Input × UInt32),
        (Aggregator.create layout window).record (inputs.map fun i => (i.1, i.2 + k))
          = (fun r => (r.1.map (Turn.later k), r.2.later k))
            <$> (Aggregator.create layout window).record inputs)
      ∧ ∀ (b : Backlog) (ops : List Backlog.Operation),
        (b.later k).performAll (ops.map (Backlog.Operation.later k))
          = (b.performAll ops).map fun r => (r.1.later k, r.2.later k) :=
  ⟨Aggregator.record_later k (Aggregator.create layout window), Backlog.performAll_later k⟩

end Peripheral
