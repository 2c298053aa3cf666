import Peripheral.Proofs.Phases

/-!
# `Peripheral.Proofs.StuckKeys` — keys that the host holds down and nobody presses

What a table holds and what still waits come to a settled level of each usage: the level that is left
when everything has been applied. A key is stuck if that level is above the number of keys that are down
and produce the usage. No step raises a settled level by more than its own update does, with one
exception: while the link is busy, a purge looks only at what waits, and a release that is stale goes
even if the press that it belongs to is in a table already. That is the only way for a key to get stuck.

## Contents
- `isDown`, `heldKeys`: the keys that are down after a history.
- `Aggregator.settledLevel`, `settledLevel_step_le`: the level that is left at last.
- `NoneStuck`, `PurgesSafely`, `History.noneStuck_iff`: when keys get stuck.
- `PurgesBalanced`, `History.noneStuck_of_balanced`: purges that are safe for sure.
-/

namespace Peripheral

open Aggregator

/-! ## Keys that are down -/

/-- Whether a key is down after a turn. -/
def Turn.leavesDown (key : UInt16) (down : Bool) (turn : Turn) : Bool :=
  match turn.input with
  | .key k pressed => if k = key then pressed else down
  | _ => down

/-- The last event of the key was a press. -/
def isDown (turns : List Turn) (key : UInt16) : Bool := turns.foldl (Turn.leavesDown key) false

/-- Number of keys that produce a usage and are down. -/
def heldKeys (layout : Layout) (turns : List Turn) (t : Target) (u : UInt16) : Nat :=
  layout.bindings.countP fun b => b.target = t && b.usage = u && isDown turns b.key

/-- The key event of a turn is a press of a key that is up or a release of a key that is down. -/
def Turn.alternates (pre : List Turn) (turn : Turn) : Bool :=
  match turn.input with
  | .key key pressed => isDown pre key = !pressed
  | _ => true

variable {layout : Layout} {window : UInt32} {turns : List Turn} {turn : Turn} {a b : Aggregator}
variable {tables : PerTarget HoldTable} {e : Pending} {t : Target} {u : UInt16}

theorem isDown_append_singleton (key : UInt16) :
    isDown (turns ++ [turn]) key = turn.leavesDown key (isDown turns key) := by
  rw [isDown, List.foldl_append]
  rfl

/-- The event of one key leaves the others alone. -/
theorem isDown_of_ne {key k : UInt16} {pressed : Bool} (hinput : turn.input = .key key pressed)
    (hne : k ≠ key) : isDown (turns ++ [turn]) k = isDown turns k := by
  rw [isDown_append_singleton, Turn.leavesDown, hinput]
  exact if_neg hne.symm

/-- Among bindings of other keys, an event changes no count. -/
theorem countP_isDown_of_ne {key : UInt16} {pressed : Bool} (hinput : turn.input = .key key pressed)
    {bindings : List Binding} (hne : ∀ b ∈ bindings, b.key ≠ key) :
    bindings.countP (fun b => b.target = t && b.usage = u && isDown (turns ++ [turn]) b.key)
      = bindings.countP (fun b => b.target = t && b.usage = u && isDown turns b.key) := by
  apply List.countP_congr
  intro b hb
  rw [isDown_of_ne hinput (hne b hb)]

/-- An event of a key that is bound changes the count by its update. -/
theorem heldKeys_of_lookup {key : UInt16} {pressed : Bool} {bound : Binding}
    (hinput : turn.input = .key key pressed) (halternate : isDown turns key = !pressed)
    (hkey : layout.lookup key = some bound) :
    (heldKeys layout (turns ++ [turn]) t u : Int)
      = heldKeys layout turns t u
        + if bound.target = t ∧ bound.usage = u then if pressed then 1 else -1 else 0 := by
  obtain ⟨hmem, rfl⟩ := Layout.lookup_eq_some_iff.mp hkey
  obtain ⟨below, above, hsplit⟩ := List.append_of_mem hmem
  have hpair := layout.ascending_bindings
  rw [hsplit] at hpair
  obtain ⟨-, habove, hbelow⟩ := List.pairwise_append.mp hpair
  -- Keys rise strictly, so the event is of no other binding.
  have hlow : ∀ b ∈ below, b.key ≠ bound.key := by
    intro b hb
    exact UInt16.ne_of_lt (hbelow b hb bound List.mem_cons_self)
  have hhigh : ∀ b ∈ above, b.key ≠ bound.key := by
    intro b hb
    exact (UInt16.ne_of_lt ((List.pairwise_cons.mp habove).1 b hb)).symm
  have hnow : isDown (turns ++ [turn]) bound.key = pressed := by
    rw [isDown_append_singleton, Turn.leavesDown, hinput]
    exact if_pos rfl
  unfold heldKeys
  rw [hsplit, List.countP_append, List.countP_append, List.countP_cons, List.countP_cons,
    countP_isDown_of_ne hinput hlow, countP_isDown_of_ne hinput hhigh, hnow, halternate]
  by_cases hsame : bound.target = t ∧ bound.usage = u
  · cases pressed <;> simp [hsame] <;> omega
  · have hother : ∀ down, (decide (bound.target = t) && decide (bound.usage = u) && down) = false := by
      intro down
      rw [← Bool.decide_and, decide_eq_false hsame, Bool.false_and]
    simp [hother, hsame]

/-- A turn that asks for no update leaves the keys that are bound as they are. -/
theorem heldKeys_of_update?_eq_none (hlayout : turn.before.layout = layout)
    (hnone : turn.update? = none) : heldKeys layout (turns ++ [turn]) t u = heldKeys layout turns t u := by
  unfold Turn.update? at hnone
  rw [hlayout] at hnone
  unfold heldKeys
  cases hinput : turn.input with
  | key key pressed =>
    rw [hinput] at hnone
    apply countP_isDown_of_ne hinput
    intro b hb hbk
    have hsome := Layout.lookup_eq_some_iff.mpr ⟨hb, hbk⟩
    rw [Layout.updateOf?, hsome] at hnone
    cases hnone
  | _ =>
    apply List.countP_congr
    intro b hb
    rw [isDown_append_singleton, Turn.leavesDown, hinput]

/-- **The keys that are down change with the updates that are asked for.** -/
theorem heldKeys_of_update?_eq_some (hlayout : turn.before.layout = layout)
    (halternate : turn.alternates turns = true) (he : turn.update? = some e) :
    (heldKeys layout (turns ++ [turn]) t u : Int) = heldKeys layout turns t u + net t u [e] := by
  unfold Turn.update? at he
  rw [hlayout] at he
  unfold Turn.alternates at halternate
  cases hinput : turn.input with
  | key key pressed =>
    rw [hinput] at he halternate
    obtain ⟨bound, hkey, rfl⟩ := Option.map_eq_some_iff.mp he
    rw [heldKeys_of_lookup hinput (of_decide_eq_true halternate) hkey]
    cases pressed <;> simp
  | _ =>
    rw [hinput] at he
    cases he

/-! ## Settled levels -/

/-- The level of a usage that is left once everything that waits has been applied. -/
def Aggregator.settledLevel (a : Aggregator) (t : Target) (u : UInt16) : Nat :=
  replay t u ((a.tables.get t).timesHeld u) a.backlog.pending

/-- The level that is left if what is stale is dropped first. -/
def Aggregator.purgedLevel (a : Aggregator) (now : UInt32) (t : Target) (u : UInt16) : Nat :=
  replay t u ((a.tables.get t).timesHeld u) (a.backlog.purge now).pending

@[simp] theorem timesHeld_vacantTables : (vacantTables.get t).timesHeld u = 0 := by
  rw [vacantTables, PerTarget.get_same, HoldTable.timesHeld_empty]

/-- An update raises the levels of the tables by no more than its change. -/
theorem timesHeld_set_le (hfits : ∀ t, (tables.get t).Fits t) {table : HoldTable} {effect : Effect}
    (hupd : (tables.get e.target).update e.usage e.change = .ok (table, effect)) :
    ((tables.set e.target table).get t).timesHeld u ≤ e.raise t u ((tables.get t).timesHeld u) := by
  by_cases ht : t = e.target
  · -- Within the table of the update, only its own usage changes.
    subst ht
    have hle := HoldTable.timesHeld_update_le (hfits e.target).wellFormed hupd u
    rw [PerTarget.get_set_self, Pending.raise]
    by_cases hu : u = e.usage
    · subst hu
      rw [if_pos rfl] at hle
      rwa [if_pos ⟨rfl, rfl⟩]
    · rw [if_neg hu] at hle
      rwa [if_neg fun h => hu h.2.symm]
  · apply Nat.le_of_eq
    rw [PerTarget.get_set_ne _ _ ht, Pending.raise, if_neg fun h => ht h.1.symm]

/-- An update that the tables ignore lowers no level: its usage has none. -/
theorem le_raise_of_ignores (hfits : ∀ t, (tables.get t).Fits t) (h : Ignores tables e) :
    (tables.get t).timesHeld u ≤ e.raise t u ((tables.get t).timesHeld u) := by
  obtain ⟨effect, hne, hupd⟩ := h
  have hle := timesHeld_set_le (t := t) (u := u) hfits hupd
  rwa [PerTarget.set_get] at hle

/-- The same of several updates. -/
theorem le_replay_of_ignores (hfits : ∀ t, (tables.get t).Fits t) {l : List Pending}
    (h : ∀ e ∈ l, Ignores tables e) :
    (tables.get t).timesHeld u ≤ replay t u ((tables.get t).timesHeld u) l := by
  induction l with
  | nil => exact Nat.le_refl _
  | cons e rest ih =>
    obtain ⟨he, hrest⟩ := List.forall_mem_cons.mp h
    exact Nat.le_trans (ih hrest) (replay_mono (le_raise_of_ignores hfits he))

/-- **Going on raises no settled level.** What is applied has counted already while it waited. -/
theorem settledLevel_drain_le (hshape : a.InShape) {out : List Output}
    (hdrain : a.DrainsTo a.backlog.pending b out) : b.settledLevel t u ≤ a.settledLevel t u := by
  cases hdrain with
  | @update skipped rest e table p rs n hl hskip hupd hsub =>
    have hset := timesHeld_set_le (t := t) (u := u) hshape.tables hupd
    have hpassed := le_replay_of_ignores (t := t) (u := u) hshape.tables hskip
    -- The updates that were passed over would have lowered no level, and `e` has done its part.
    show replay t u _ rest ≤ replay t u _ a.backlog.pending
    rw [hl, replay_append, replay_cons]
    exact replay_mono (Nat.le_trans hset (e.raise_mono hpassed))
  | motion hskip hsub => exact le_replay_of_ignores hshape.tables hskip
  | idle hskip hrest => exact le_replay_of_ignores hshape.tables hskip

/-- Where nothing is held, meeting a host changes no settled level, as what is dropped comes to
    nothing. -/
theorem settledLevel_meeting (hvacant : a.tables = vacantTables) (now : UInt32) :
    (a.meeting now).settledLevel t u = a.settledLevel t u := by
  show replay t u ((a.tables.get t).timesHeld u) (a.backlog.purge now).pending = replay t u _ _
  rw [hvacant, timesHeld_vacantTables]
  exact a.backlog.replay_purge now t u

/-- Putting an update off without a host adds it to the settled levels, or leaves nothing else. -/
theorem settledLevel_defers_le (hvacant : a.tables = vacantTables) {reset : Bool}
    (hdefer : a.Defers e reset b) : b.settledLevel t u ≤ e.raise t u (a.settledLevel t u) := by
  unfold settledLevel
  rw [hvacant, timesHeld_vacantTables]
  cases hdefer with
  | kept hroom hsame hpurge =>
    rw [hvacant, timesHeld_vacantTables, replay_append, hsame t u]
    exact Nat.le_refl _
  | reset hnone =>
    rw [PerTarget.get_map, HoldTable.clear, HoldTable.timesHeld_empty]
    exact e.raise_mono (Nat.zero_le _)

/-- **What a step does to a settled level.** It raises it by no more than its own update does, unless it
    puts the update off while the link is busy, or drops everything because the device gets ready. -/
theorem settledLevel_step_le (hsound : a.Sound) {input : Input} {now : UInt32} {out : List Output}
    (hstep : a.step input now = .ok (b, out)) (hready : input ≠ .ready)
    (hbusy : a.phase = .busy → a.layout.updateOf? input now = none) :
    b.settledLevel t u ≤ replay t u (a.settledLevel t u) (a.layout.updateOf? input now).toList := by
  cases outcome_of_step hstep with
  | unbound hkey =>
    rw [Layout.updateOf?_of_lookup hkey]
    exact Nat.le_refl _
  | ignored he hidle hign =>
    rw [he]
    show replay t u _ a.backlog.pending ≤ _
    rw [settledLevel, (hsound.idle hidle).1]
    exact le_raise_of_ignores hsound.tables hign
  | applied he hidle hupd hsub =>
    rw [he]
    show replay t u _ a.backlog.pending ≤ _
    rw [settledLevel, (hsound.idle hidle).1]
    exact timesHeld_set_le hsound.tables hupd
  | @deferred _ _ _ e he hnotidle =>
    rw [he] at hbusy ⊢
    -- On a busy link nothing was asked for, and on an idle one nothing is put off.
    have hdown : a.phase = .disconnected := by
      cases hphase : a.phase with
      | disconnected => rfl
      | idle => exact absurd hphase hnotidle
      | busy => cases hbusy hphase
    exact settledLevel_defers_le (hsound.disconnected hdown).1 (hsound.defers_defer e)
  | moved hmotion | moving hmotion =>
    rw [Layout.updateOf?_of_isMotion _ hmotion]
    exact Nat.le_refl _
  | stray | late | unmoved => exact Nat.le_refl _
  | delivered hsome hup hdrain =>
    have hle := settledLevel_drain_le (t := t) (u := u) hsound.toInShape hdrain
    exact hle
  | connected hdown hdrain =>
    have hle := settledLevel_drain_le (t := t) (u := u) (hsound.toInShape.meeting now) hdrain
    rwa [settledLevel_meeting (hsound.disconnected hdown).1 now] at hle
  | disconnected hup =>
    rw [disconnect, if_neg hup, hsound.map_clear]
    show replay t u ((vacantTables.get t).timesHeld u) [] ≤ _
    rw [timesHeld_vacantTables]
    exact Nat.zero_le _
  | started => exact absurd rfl hready

/-! ## When keys get stuck -/

/-- No key is stuck: no settled level is above the number of keys that are down for it. -/
def NoneStuck (layout : Layout) (turns : List Turn) (a : Aggregator) : Prop :=
  ∀ t u, a.settledLevel t u ≤ heldKeys layout turns t u

/-- Where nothing is held and nothing waits, no key is stuck. -/
theorem noneStuck_of_vacant (hvacant : a.tables = vacantTables) (hempty : a.backlog.pending = []) :
    NoneStuck layout turns a := by
  intro t u
  rw [settledLevel, hvacant, hempty, timesHeld_vacantTables]
  exact Nat.zero_le _

/-- If an update came while the link was busy, dropping what was stale left no level above the number of
    keys that were down for it. -/
def PurgesSafely (layout : Layout) (pre : List Turn) (turn : Turn) : Prop :=
  turn.before.phase = .busy → turn.update?.isSome = true →
    ∀ t u, turn.before.purgedLevel turn.now t u ≤ heldKeys layout pre t u

/-- Levels and counts that go along with each other through an update stay in order. -/
theorem raise_le_iff {s held held' : Nat} (hheld : (held' : Int) = held + net t u [e]) :
    e.raise t u s ≤ held' ↔ s ≤ held := by
  rw [net_cons, net_nil] at hheld
  unfold Pending.raise
  split
  · rename_i hsame
    rw [if_pos hsame] at hheld
    omega
  · rename_i hother
    rw [if_neg hother] at hheld
    omega

/-- A turn that is not a purge on a busy link leaves no key stuck. -/
theorem noneStuck_of_step (h : History layout window turns a) {input : Input} {now : UInt32}
    {out : List Output} (hstep : a.step input now = .ok (b, out)) (hready : input ≠ .ready)
    (hbusy : a.phase = .busy → a.layout.updateOf? input now = none)
    (halternate : Turn.alternates turns ⟨a, input, now, b, out⟩ = true)
    (hnone : NoneStuck layout turns a) :
    NoneStuck layout (turns ++ [⟨a, input, now, b, out⟩]) b := by
  intro t u
  refine Nat.le_trans (settledLevel_step_le h.sound hstep hready hbusy) ?_
  cases he : a.layout.updateOf? input now with
  | none =>
    have hsame : heldKeys layout (turns ++ [⟨a, input, now, b, out⟩]) t u = heldKeys layout turns t u :=
      heldKeys_of_update?_eq_none h.layout_eq he
    rw [hsame]
    exact hnone t u
  | some e => exact (raise_le_iff (heldKeys_of_update?_eq_some h.layout_eq halternate he)).mpr (hnone t u)

/-- **Putting an update off while the link is busy** keeps a level in order with a count exactly if
    dropping what is stale does. -/
theorem settledLevel_defers_le_iff (hshape : a.InShape) (hbusy : a.phase = .busy) {reset : Bool}
    (hdefer : a.Defers e reset b) {held held' : Nat} (hsettled : a.settledLevel t u ≤ held)
    (hheld : (held' : Int) = held + net t u [e]) :
    b.settledLevel t u ≤ held' ↔ a.purgedLevel e.time t u ≤ held := by
  rw [← raise_le_iff hheld]
  cases hdefer with
  | kept hroom hsame hpurge =>
    have hup : a.phase ≠ .disconnected := by rw [hbusy]; decide
    rw [hpurge hup]
    show replay t u _ (_ ++ [e]) ≤ _ ↔ _
    rw [replay_append]
    rfl
  | reset hstale =>
    -- Only where a purge drops nothing is everything given up, so the purge was safe.
    have hpurged : a.purgedLevel e.time t u = a.settledLevel t u := by
      rw [purgedLevel, Backlog.pending_purge, hstale, List.drop_zero]
      rfl
    rw [raise_le_iff hheld, hpurged]
    refine iff_of_true ?_ hsettled
    show replay t u (((a.tables.map HoldTable.clear).get t).timesHeld u) [e] ≤ _
    rw [hshape.map_clear, timesHeld_vacantTables]
    exact (raise_le_iff hheld).mpr (Nat.zero_le _)

/-- One turn more: no key is stuck behind it exactly if it purges safely. -/
theorem noneStuck_iff_purgesSafely (h : History layout window turns a) {input : Input} {now : UInt32}
    {out : List Output} (hstep : a.step input now = .ok (b, out)) (hready : input = .ready → turns = [])
    (halternate : Turn.alternates turns ⟨a, input, now, b, out⟩ = true)
    (hnone : NoneStuck layout turns a) :
    NoneStuck layout (turns ++ [⟨a, input, now, b, out⟩]) b
      ↔ PurgesSafely layout turns ⟨a, input, now, b, out⟩ := by
  by_cases hpurge : a.phase = .busy ∧ (a.layout.updateOf? input now).isSome = true
  · obtain ⟨hbusy, hsome⟩ := hpurge
    cases outcome_of_step hstep with
    | @deferred key pressed _ e he hnotidle =>
      have htime := Layout.time_of_updateOf? he
      subst htime
      have hlevels : ∀ t u, (a.defer e).settledLevel t u
          ≤ heldKeys layout (turns ++ [⟨a, .key key pressed, e.time, a.defer e, [.activity]⟩]) t u
          ↔ a.purgedLevel e.time t u ≤ heldKeys layout turns t u := by
        intro t u
        exact settledLevel_defers_le_iff h.sound.toInShape hbusy (h.sound.defers_defer e) (hnone t u)
          (heldKeys_of_update?_eq_some h.layout_eq halternate he)
      constructor
      · intro hstuck _ _ t u
        exact (hlevels t u).mp (hstuck t u)
      · intro hsafe t u
        exact (hlevels t u).mpr (hsafe hbusy hsome t u)
    | unbound hkey =>
      rw [Layout.updateOf?_of_lookup hkey] at hsome
      cases hsome
    | ignored he hidle | applied he hidle => exact absurd (hbusy.symm.trans hidle) (by decide)
    | moved hmotion | moving hmotion =>
      rw [Layout.updateOf?_of_isMotion _ hmotion] at hsome
      cases hsome
    | _ => cases hsome
  · -- Nothing is purged on a busy link, so there is nothing to show of the purge.
    refine iff_of_true ?_ fun hbusy hsome => absurd ⟨hbusy, hsome⟩ hpurge
    by_cases hinput : input = .ready
    · -- Only a new aggregator gets ready, and nothing is held or waits there.
      obtain rfl := hready hinput
      subst hinput
      have ha : create layout window = a := by simpa using h.run_eq_ok
      subst ha
      cases hstep
      exact noneStuck_of_vacant rfl rfl
    · apply noneStuck_of_step h hstep hinput ?_ halternate hnone
      intro hbusy
      exact Option.not_isSome_iff_eq_none.mp fun hsome => hpurge ⟨hbusy, hsome⟩

/-- **When keys get stuck.** Let the events of each key alternate, beginning with a press, and let the
    device get ready at the beginning if at all. Then no key is stuck in any state of the history if and
    only if every purge on a busy link is safe. -/
theorem History.noneStuck_iff (h : History layout window turns a)
    (hready : Along (fun pre turn => turn.input = .ready → pre = []) turns)
    (halternate : Along (fun pre turn => turn.alternates pre = true) turns) :
    Along (fun pre turn => NoneStuck layout (pre ++ [turn]) turn.after) turns
      ↔ Along (PurgesSafely layout) turns := by
  suffices hstrong :
      (Along (fun pre turn => NoneStuck layout (pre ++ [turn]) turn.after) turns
        ↔ Along (PurgesSafely layout) turns)
      ∧ (Along (PurgesSafely layout) turns → NoneStuck layout turns a) from hstrong.1
  induction h with
  | new => exact ⟨iff_of_true along_nil along_nil, fun _ => noneStuck_of_vacant rfl rfl⟩
  | turn h hstep ih =>
    -- As long as all was safe no key is stuck, and then the next purge decides.
    obtain ⟨hready, hready'⟩ := along_append_singleton.mp hready
    obtain ⟨halternate, halternate'⟩ := along_append_singleton.mp halternate
    obtain ⟨hiff, hnone⟩ := ih hready halternate
    have hlast := fun hsafe => noneStuck_iff_purgesSafely h hstep hready' halternate' (hnone hsafe)
    rw [along_append_singleton, along_append_singleton, hiff]
    exact ⟨and_congr_right hlast, fun hsafe => (hlast hsafe.1).mpr hsafe.2⟩

/-- A press that is reported, and its release, which waits until it is stale; then another press. -/
def outstaying : List (Input × UInt32) :=
  [(.ready, 0), (.link true, 0), (.key 4 true, 10), (.key 4 false, 20), (.key 5 true, 600)]

/-- The stale release is dropped, and its key is down for ever although nobody presses it. -/
theorem settledLevel_of_outstaying :
    ∃ turns a, History Layout.standard 500 turns a ∧ turns.map Turn.stimulus = outstaying
      ∧ Along (fun pre turn => turn.alternates pre = true) turns
      ∧ heldKeys Layout.standard turns .keyboard 4 = 0 ∧ a.settledLevel .keyboard 4 = 1 := by
  obtain ⟨turns, a, h, hinputs, hstate⟩ := exists_history Layout.standard 500 outstaying
    (fun turns a => Along (fun pre turn => turn.alternates pre = true) turns
      && heldKeys Layout.standard turns .keyboard 4 = 0 && a.settledLevel .keyboard 4 = 1)
    (by decide +kernel)
  simp only [Bool.and_eq_true, decide_eq_true_eq] at hstate
  exact ⟨turns, a, h, hinputs, hstate.1.1, hstate.1.2, hstate.2⟩

/-- So one of the purges was not safe. -/
theorem not_purgesSafely_of_outstaying :
    ∃ turns a, History Layout.standard 500 turns a ∧ turns.map Turn.stimulus = outstaying
      ∧ ¬ Along (PurgesSafely Layout.standard) turns := by
  obtain ⟨turns, a, h, hinputs, hstate⟩ := exists_history Layout.standard 500 outstaying
    (fun turns _ => Along (fun pre turn => turn.input = .ready → pre.isEmpty = true) turns
      && Along (fun pre turn => turn.alternates pre = true) turns
      && turns.getLast?.any fun turn =>
        heldKeys Layout.standard turns .keyboard 4 < turn.after.settledLevel .keyboard 4)
    (by decide +kernel)
  simp only [Bool.and_eq_true, decide_eq_true_eq, List.isEmpty_iff] at hstate
  obtain ⟨⟨hready, halternate⟩, hstuck⟩ := hstate
  refine ⟨turns, a, h, hinputs, ?_⟩
  intro hsafe
  have hnone := (h.noneStuck_iff hready halternate).mpr hsafe
  obtain ⟨last, hlast, hlevel⟩ := (Option.any_eq_true _ _).mp hstuck
  obtain ⟨pre, rfl⟩ := List.getLast?_eq_some_iff.mp hlast
  exact Nat.not_le.mpr (of_decide_eq_true hlevel) (hnone pre last [] rfl .keyboard 4)

/-! ## Purges that are balanced -/

/-- If an update came while the link was busy, what was dropped as stale had as many presses as releases
    of every usage that was held. -/
def PurgesBalanced (turn : Turn) : Prop :=
  turn.before.phase = .busy → turn.update?.isSome = true →
    ∀ t u, (turn.before.tables.get t).timesHeld u ≠ 0 →
      net t u (turn.before.backlog.pending.take (turn.before.backlog.purgeable turn.now)) = 0

/-- A balanced purge is safe where no key is stuck. -/
theorem purgesSafely_of_balanced (hnone : NoneStuck layout turns turn.before)
    (hbalanced : PurgesBalanced turn) : PurgesSafely layout turns turn := by
  intro hbusy hsome t u
  refine Nat.le_trans ?_ (hnone t u)
  unfold purgedLevel settledLevel
  generalize hlevel : (turn.before.tables.get t).timesHeld u = level
  have hdropped : level ≤ replay t u level
      (turn.before.backlog.pending.take (turn.before.backlog.purgeable turn.now)) := by
    by_cases hheld : level = 0
    · rw [hheld]
      exact Nat.zero_le _
    · have hle := @le_replay t u level
        (turn.before.backlog.pending.take (turn.before.backlog.purgeable turn.now))
      rw [hbalanced hbusy hsome t u (hlevel ▸ hheld), Int.add_zero] at hle
      exact Int.ofNat_le.mp hle
  have hparts := @replay_append t u level
    (turn.before.backlog.pending.take (turn.before.backlog.purgeable turn.now))
    (turn.before.backlog.pending.drop (turn.before.backlog.purgeable turn.now))
  rw [List.take_append_drop] at hparts
  rw [hparts, Backlog.pending_purge]
  exact replay_mono hdropped

/-- **No key gets stuck if every purge on a busy link is balanced**: if none of them drops a release of
    a usage that is held without a press of it. -/
theorem History.noneStuck_of_balanced (h : History layout window turns a)
    (hready : Along (fun pre turn => turn.input = .ready → pre = []) turns)
    (halternate : Along (fun pre turn => turn.alternates pre = true) turns)
    (hbalanced : Along (fun _ turn => PurgesBalanced turn) turns) : NoneStuck layout turns a := by
  induction h with
  | new => exact noneStuck_of_vacant rfl rfl
  | turn h hstep ih =>
    obtain ⟨hready, hready'⟩ := along_append_singleton.mp hready
    obtain ⟨halternate, halternate'⟩ := along_append_singleton.mp halternate
    obtain ⟨hbalanced, hbalanced'⟩ := along_append_singleton.mp hbalanced
    have hnone := ih hready halternate hbalanced
    exact (noneStuck_iff_purgesSafely h hstep hready' halternate' hnone).mpr
      (purgesSafely_of_balanced hnone hbalanced')

end Peripheral
