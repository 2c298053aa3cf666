import Mathlib.Data.List.Dedup
import Mathlib.Data.List.Induction
import Mathlib.Data.List.Sort
import Peripheral.Proofs.ArrivalOrder
import Peripheral.Proofs.Handshake
import Peripheral.Proofs.Renewal
import Peripheral.Proofs.StuckKeys

/-!
# `Peripheral.Proofs.SharedKeys` — keys that share a usage are counted

Several keys can produce one usage, and the host is to believe that it is down as long as one of them is. The
tables count for that, but what they count comes to them late and in parts: some presses and releases are applied
at once, others wait while a report is on the way. What a table holds and what still waits add up to the keys
that are down at any time, as long as nothing is lost; and on the way there no level leaves its range, so no
release finds its usage unheld and every update makes its report due.

The counters of losses tell whether anything was lost, up to their greatest value. A counter that is there
already stays where it is when something is lost, and then the count can go wrong unseen.

## Contents
- `heldUsages`, `mem_heldUsages`: the usages that keys hold down.
- `Turn.lost`, `Turn.Spares`, `lost_eq_zero`: what a turn loses, and the counters that tell of it.
- `Tallies`, `Tallies.push`, `Tallies.apply`: tables and waiting updates that add up.
- `tallies_drainFrom`, `tallies_step`: turns that lose nothing; `History.tallies`: sessions of them.
- `History.shared_keys_counted`: levels and reports of such a session.
- `exists_flooded`, `shared_keys_miscounted_full_counter`: a counter that cannot tell of a loss.
-/

namespace Peripheral

open Aggregator

/-! ## Usages that are held down -/

/-- The usages of a report that keys hold down, each of them once and the highest first. -/
def heldUsages (layout : Layout) (turns : List Turn) (t : Target) : List UInt16 :=
  ((layout.bindings.filter fun b => b.target = t && isDown turns b.key).map Binding.usage).dedup.insertionSort
    (· ≥ ·)

variable {layout : Layout} {window : UInt32} {turns past session : List Turn} {opening : Turn}
variable {a b : Aggregator} {t : Target} {u : UInt16}

/-- A usage is held down if a key that produces it is down. -/
theorem mem_heldUsages : u ∈ heldUsages layout turns t ↔ heldKeys layout turns t u ≠ 0 := by
  unfold heldUsages heldKeys
  rw [(List.perm_insertionSort _ _).mem_iff, List.mem_dedup, List.mem_map, ← Nat.pos_iff_ne_zero,
    List.countP_pos_iff]
  constructor
  · rintro ⟨b, hb, rfl⟩
    obtain ⟨hmem, hdown⟩ := List.mem_filter.mp hb
    refine ⟨b, hmem, ?_⟩
    simpa using hdown
  · rintro ⟨b, hmem, hb⟩
    simp only [Bool.and_eq_true, decide_eq_true_eq] at hb
    obtain ⟨⟨htarget, rfl⟩, hdown⟩ := hb
    exact ⟨b, List.mem_filter.mpr ⟨hmem, by simp [htarget, hdown]⟩, rfl⟩

/-- The usages that are held down fall strictly. -/
theorem pairwise_heldUsages (layout : Layout) (turns : List Turn) (t : Target) :
    (heldUsages layout turns t).Pairwise fun u v => v < u := by
  have : Std.Total fun u v : UInt16 => u ≥ v := ⟨fun u v => UInt16.le_total v u⟩
  have : IsTrans UInt16 fun u v => u ≥ v := ⟨fun _ _ _ huv hvw => UInt16.le_trans hvw huv⟩
  have hfalls := List.pairwise_insertionSort (· ≥ ·)
    ((layout.bindings.filter fun b => b.target = t && isDown turns b.key).map Binding.usage).dedup
  have hnodup : (heldUsages layout turns t).Nodup :=
    (List.perm_insertionSort _ _).nodup_iff.mpr (List.nodup_dedup _)
  refine (hfalls.and hnodup).imp ?_
  rintro u v ⟨hle, hne⟩
  exact UInt16.lt_of_le_of_ne hle (Ne.symm hne)

/-- A list that falls strictly is known by its members. -/
theorem eq_of_falling {l m : List UInt16} (hl : l.Pairwise fun u v => v < u)
    (hm : m.Pairwise fun u v => v < u) (hmem : ∀ u, u ∈ l ↔ u ∈ m) : l = m := by
  have hnodup : ∀ {l : List UInt16}, (l.Pairwise fun u v => v < u) → l.Nodup :=
    fun h => h.imp fun hlt => (UInt16.ne_of_lt hlt).symm
  refine List.Perm.eq_of_pairwise ?_ hl hm ((List.perm_ext_iff_of_nodup (hnodup hl) (hnodup hm)).mpr hmem)
  intro u v _ _ huv hvu
  exact absurd (UInt16.lt_trans huv hvu) (UInt16.lt_irrefl v)

/-- No more keys are down than are bound. -/
theorem heldKeys_le (layout : Layout) (turns : List Turn) (t : Target) (u : UInt16) :
    heldKeys layout turns t u ≤ layout.size :=
  List.countP_le_length

/-! ## Losses of a turn -/

/-- The losses of a turn, counted from nothing. -/
def Turn.lost (t : Turn) : Losses :=
  match ({ t.before with losses := .none } : Aggregator).step t.input t.now with
  | .ok (b, _) => b.losses
  | .error _ => .none

variable {input : Input} {now : UInt32} {out : List Output}

/-- A turn does the same if nothing was lost before it, and then it tells what it loses. -/
theorem exists_step_lost (hsound : a.Sound) (hready : input ≠ .ready)
    (hstep : a.step input now = .ok (b, out)) :
    ∃ c, ({ a with losses := .none } : Aggregator).step input now = .ok (c, out)
      ∧ b = c.withPast a.losses a.started ∧ Turn.lost ⟨a, input, now, b, out⟩ = c.losses := by
  have hclean : Sound { a with losses := .none } := { hsound with }
  obtain ⟨c, o, hc⟩ := hclean.exists_step (fun hinput => absurd hinput hready) now
  have hpast := step_withPast a.losses a.started hready hc
  have hsame : withPast { a with losses := .none } a.losses a.started = a := by simp [withPast]
  rw [hsame, hstep] at hpast
  cases hpast
  exact ⟨c, hc, rfl, by rw [Turn.lost, hc]⟩

/-- The turn leaves a counter of losses unchanged. A counter that is at its greatest value cannot change any
    more, so there it matters what the turn loses. -/
def Turn.Spares (count : Losses → UInt32) (t : Turn) : Prop :=
  count t.after.losses = count t.before.losses ∧ (count t.before.losses = 4294967295 → count t.lost = 0)

instance (count : Losses → UInt32) (t : Turn) : Decidable (t.Spares count) :=
  inferInstanceAs (Decidable (_ ∧ (_ → _)))

/-- **The counters tell what a turn loses**: where one of them stays, nothing is lost. -/
theorem lost_eq_zero (hsound : a.Sound) (hready : input ≠ .ready)
    (hstep : a.step input now = .ok (b, out)) {count : Losses → UInt32}
    (hcount : ∀ base l, count (Losses.above base l) = Saturating.raise (count base) (count l).toNat)
    (hspares : Turn.Spares count ⟨a, input, now, b, out⟩) :
    count (Turn.lost ⟨a, input, now, b, out⟩) = 0 := by
  obtain ⟨hstays, hgreatest⟩ := hspares
  obtain ⟨c, -, rfl, hlost⟩ := exists_step_lost hsound hready hstep
  rw [hlost] at hgreatest ⊢
  change count (Losses.above a.losses c.losses) = count a.losses at hstays
  rw [hcount] at hstays
  rcases Saturating.eq_zero_of_raise_eq_self hstays with hfull | hnone
  · exact hgreatest hfull
  · exact hnone

/-! ## Tables and waiting updates that add up -/

/-- **What is held and what waits add up.** To apply the updates `l` to the tables takes no level out of its
    range at any point, and brings each of them to what is to be held. -/
structure Tallies (tables : PerTarget HoldTable) (l : List Pending) (held : Target → UInt16 → Nat) :
    Prop where
  within : ∀ t u n, 0 ≤ ((tables.get t).timesHeld u : Int) + net t u (l.take n)
    ∧ ((tables.get t).timesHeld u : Int) + net t u (l.take n) ≤ 32767
  settles : ∀ t u, ((tables.get t).timesHeld u : Int) + net t u l = held t u

namespace Tallies

variable {tables : PerTarget HoldTable} {l rest : List Pending} {held held' : Target → UInt16 → Nat}
variable {e : Pending}

/-- Where nothing waits, the levels are what is to be held. -/
theorem timesHeld_eq (h : Tallies tables [] held) (t : Target) (u : UInt16) :
    (tables.get t).timesHeld u = held t u := by
  have hsettles := h.settles t u
  rw [net_nil] at hsettles
  omega

/-- Nothing is held by nobody. -/
theorem vacant : Tallies vacantTables [] fun _ _ => 0 where
  within t u n := by simp
  settles t u := by simp

/-- One more update waits behind the others. -/
theorem push (h : Tallies tables l held) (hheld : ∀ t u, (held' t u : Int) = held t u + net t u [e])
    (hhigh : ∀ t u, held' t u ≤ 32767) : Tallies tables (l ++ [e]) held' := by
  have hsettles : ∀ t u, ((tables.get t).timesHeld u : Int) + net t u (l ++ [e]) = held' t u := by
    intro t u
    rw [net_append, hheld, ← h.settles t u]
    omega
  -- What is new is the whole list; its shorter beginnings were there before.
  have htake : ∀ n, (l ++ [e]).take n = l.take n ∨ (l ++ [e]).take n = l ++ [e] := by
    intro n
    rcases Nat.lt_or_ge l.length n with hlt | hle
    · exact .inr (List.take_of_length_le (by rw [List.length_append]; exact hlt))
    · exact .inl (List.take_append_of_le_length hle)
  refine ⟨?_, hsettles⟩
  intro t u n
  rcases htake n with hsame | hall
  · rw [hsame]
    exact h.within t u n
  · rw [hall, hsettles]
    exact ⟨Int.natCast_nonneg _, Int.ofNat_le.mpr (hhigh t u)⟩

/-- **The update that waits first changes its level and makes its report due**, unless there is no room for
    it. -/
theorem apply (h : Tallies tables (e :: rest) held) (hfits : ∀ t, (tables.get t).Fits t)
    {table : HoldTable} {effect : Effect}
    (hupd : (tables.get e.target).update e.usage e.change = .ok (table, effect)) (hroom : effect ≠ .noRoom) :
    effect = .changed ∧ Tallies (tables.set e.target table) rest held := by
  have hwf := (hfits e.target).wellFormed
  have hfirst : net e.target e.usage [e] = e.change.toInt := by simp
  obtain ⟨hlow, hhigh⟩ := h.within e.target e.usage 1
  rw [List.take_succ_cons, List.take_zero, hfirst] at hlow hhigh
  have hchanged : effect = .changed := by
    rcases (HoldTable.update_cases hupd).2 with ⟨_, _, he, _⟩ | ⟨hnone, hneg, _⟩ | ⟨_, _, _, he, _⟩ | ⟨_, _, he, _⟩
    · exact he
    · -- A release of a usage that is not held would take its level below zero.
      have hzero : (tables.get e.target).timesHeld e.usage = 0 := by
        rw [HoldTable.timesHeld, hwf.level?_of_placeOf?_eq_none hnone]
        rfl
      rw [hzero] at hlow
      exact absurd (Int16.lt_iff_toInt_lt.mp hneg) (by simpa using hlow)
    · exact absurd he hroom
    · exact he
  subst hchanged
  refine ⟨rfl, ?_⟩
  have hlevels : ∀ t u, (((tables.set e.target table).get t).timesHeld u : Int)
      = (tables.get t).timesHeld u + net t u [e] := by
    intro t u
    rw [net_cons, net_nil, Int.add_zero]
    by_cases ht : t = e.target
    · subst ht
      rw [PerTarget.get_set_self, HoldTable.timesHeld_update hwf hupd hlow hhigh]
      simp
    · rw [PerTarget.get_set_ne _ _ ht, if_neg fun hsame => ht hsame.1.symm, Int.add_zero]
  have hnext : ∀ t u m, (((tables.set e.target table).get t).timesHeld u : Int) + net t u m
      = (tables.get t).timesHeld u + net t u (e :: m) := by
    intro t u m
    rw [hlevels, Int.add_assoc, ← net_append]
    rfl
  refine ⟨?_, ?_⟩
  · intro t u n
    rw [hnext]
    exact h.within t u (n + 1)
  · intro t u
    rw [hnext]
    exact h.settles t u

end Tallies

/-! ## Turns that lose nothing -/

variable {e : Pending} {due : Bool}

namespace Aggregator

/-- To apply an update is to update its table; a press without room is counted. -/
theorem exists_update_of_apply (h : a.apply e.target e.usage e.change = .ok (b, due)) :
    ∃ table effect, (a.tables.get e.target).update e.usage e.change = .ok (table, effect)
      ∧ b.tables = a.tables.set e.target table ∧ b.backlog = a.backlog ∧ due = decide (effect = .changed)
      ∧ b.losses.tableFull
        = if effect = .noRoom then Saturating.raise a.losses.tableFull 1 else a.losses.tableFull := by
  obtain ⟨⟨table, effect⟩, hupd, h⟩ := Fault.bind_eq_ok.mp h
  cases effect <;> cases h <;> exact ⟨_, _, hupd, rfl, rfl, rfl, rfl⟩

/-- A counter of presses without room that is at zero has been there all the time. -/
theorem tableFull_eq_zero_of_drainFrom {l : List Pending} (hdrain : a.drainFrom l = .ok (b, out))
    (hfull : b.losses.tableFull = 0) : a.losses.tableFull = 0 := by
  induction l generalizing a with
  | nil =>
    unfold drainFrom at hdrain
    dsimp only at hdrain
    split at hdrain
    · obtain ⟨p, rs, -, rfl, -⟩ := submits_of_report hdrain
      exact hfull
    · cases hdrain
      exact hfull
  | cons e rest ih =>
    unfold drainFrom at hdrain
    obtain ⟨⟨c, due⟩, happly, hdrain⟩ := Fault.bind_eq_ok.mp hdrain
    obtain ⟨table, effect, -, -, -, -, hcount⟩ := exists_update_of_apply happly
    have hafter : c.losses.tableFull = 0 := by
      dsimp only at hdrain
      split at hdrain
      · obtain ⟨p, rs, -, rfl, -⟩ := submits_of_report hdrain
        exact hfull
      · exact ih hdrain
    rw [hafter] at hcount
    split at hcount
    · exact absurd (Saturating.eq_zero_of_raise_eq_zero hcount.symm) Nat.one_ne_zero
    · exact hcount.symm

variable {l rest : List Pending} {held held' : Target → UInt16 → Nat}

/-- Where all adds up and no press finds its table full, each update makes its report due. -/
theorem tallies_apply (h : Tallies a.tables (e :: rest) held) (hfits : ∀ t, (a.tables.get t).Fits t)
    (happly : a.apply e.target e.usage e.change = .ok (b, due)) (hfull : b.losses.tableFull = 0) :
    due = true ∧ Tallies b.tables rest held := by
  obtain ⟨table, effect, hupd, htables, -, rfl, hcount⟩ := exists_update_of_apply happly
  have hroom : effect ≠ .noRoom := by
    rintro rfl
    rw [if_pos rfl, hfull] at hcount
    exact absurd (Saturating.eq_zero_of_raise_eq_zero hcount.symm) Nat.one_ne_zero
  obtain ⟨rfl, hnext⟩ := h.apply hfits hupd hroom
  rw [htables]
  exact ⟨rfl, hnext⟩

/-- **Going on keeps what adds up.** The first update that waits is reported, so no other is applied. -/
theorem tallies_drainFrom (h : Tallies a.tables l held) (hfits : ∀ t, (a.tables.get t).Fits t)
    (hdrain : a.drainFrom l = .ok (b, out)) (hfull : b.losses.tableFull = 0) :
    Tallies b.tables b.backlog.pending held := by
  unfold drainFrom at hdrain
  cases l with
  | nil =>
    dsimp only at hdrain
    split at hdrain
    · obtain ⟨p, rs, -, rfl, -⟩ := submits_of_report hdrain
      exact h
    · cases hdrain
      exact h
  | cons e rest =>
    obtain ⟨⟨c, due⟩, happly, hdrain⟩ := Fault.bind_eq_ok.mp hdrain
    obtain ⟨-, -, -, -, hbacklog, -, -⟩ := exists_update_of_apply happly
    dsimp only at hdrain
    split at hdrain
    · obtain ⟨p, rs, -, rfl, -⟩ := submits_of_report hdrain
      obtain ⟨-, hnext⟩ := tallies_apply
        (a := { a with backlog := { a.backlog with pending := rest } }) h hfits happly hfull
      show Tallies c.tables c.backlog.pending held
      rw [hbacklog]
      exact hnext
    · rename_i hsilent
      have hcount := tableFull_eq_zero_of_drainFrom hdrain hfull
      obtain ⟨hdue, -⟩ := tallies_apply
        (a := { a with backlog := { a.backlog with pending := rest } }) h hfits happly hcount
      exact absurd hdue hsilent

/-- An update that is applied at once does what it would have done had it waited. -/
theorem tallies_applyNow (h : Tallies a.tables [e] held) (hfits : ∀ t, (a.tables.get t).Fits t)
    (happly : a.applyNow e = .ok (b, out)) (hfull : b.losses.tableFull = 0) :
    Tallies b.tables [] held ∧ b.backlog = a.backlog := by
  unfold applyNow at happly
  obtain ⟨⟨c, due⟩, hupdate, happly⟩ := Fault.bind_eq_ok.mp happly
  obtain ⟨-, -, -, -, hbacklog, -, -⟩ := exists_update_of_apply hupdate
  dsimp only at happly
  split at happly
  · obtain ⟨p, rs, -, rfl, -⟩ := submits_of_report happly
    exact ⟨(tallies_apply h hfits hupdate hfull).2, hbacklog⟩
  · rename_i hsilent
    cases happly
    exact absurd (tallies_apply h hfits hupdate hfull).1 hsilent

/-- A key event that asks for an update hands it over. -/
theorem update_of_step {key : UInt16} {pressed : Bool}
    (he : a.layout.updateOf? (.key key pressed) now = some e)
    (hstep : a.step (.key key pressed) now = .ok (b, out)) : ∃ o, a.update e = .ok (b, o) := by
  change a.key key pressed now = _ at hstep
  unfold Layout.updateOf? at he
  obtain ⟨bound, hkey, rfl⟩ := Option.map_eq_some_iff.mp he
  unfold Aggregator.key at hstep
  rw [hkey] at hstep
  obtain ⟨⟨c, o⟩, hupdate, hstep⟩ := Fault.bind_eq_ok.mp hstep
  cases hstep
  exact ⟨o, hupdate⟩

/-- An acknowledgement goes on with what waits. -/
theorem drain_of_step (hsome : a.pipeline.inFlight.get t ≠ 0) (hup : a.phase ≠ .disconnected)
    (hstep : a.step (.delivered t) now = .ok (b, out)) :
    ∃ c, a.drain = .ok (c, out) ∧ b = { c with pipeline := (c.pipeline.acknowledge? t).getD c.pipeline } := by
  change a.delivered t = _ at hstep
  unfold Aggregator.delivered resume at hstep
  rw [if_neg hsome, if_neg hup] at hstep
  obtain ⟨⟨c, o⟩, hdrain, hstep⟩ := Fault.bind_eq_ok.mp hstep
  cases hstep
  exact ⟨c, hdrain, rfl⟩

/-- The count of resets after an update was put off. -/
theorem resets_defer (a : Aggregator) (e : Pending) :
    (a.defer e).losses.resets
      = if a.resets e then Saturating.raise a.losses.resets 1 else a.losses.resets := by
  unfold defer resets
  dsimp only
  split <;> split <;> rfl

/-- A turn that counts no reset makes none. -/
theorem resets_eq_false_of_step (hstep : a.step input now = .ok (b, out)) (hresets : b.losses.resets = 0) :
    Turn.resets ⟨a, input, now, b, out⟩ = false := by
  cases outcome_of_step hstep with
  | unbound hkey => exact Turn.resets_of_update?_eq_none (Layout.updateOf?_of_lookup hkey _ now)
  | ignored he hidle | applied he hidle => exact Turn.resets_of_idle hidle
  | @deferred key pressed _ e he hbusy =>
    have hturn := Turn.resets_of_update?_eq_some (t := ⟨a, .key key pressed, now, a.defer e, [.activity]⟩) he
      hbusy
    rw [hturn, Bool.eq_false_iff]
    intro hreset
    rw [resets_defer, if_pos hreset] at hresets
    exact absurd (Saturating.eq_zero_of_raise_eq_zero hresets) Nat.one_ne_zero
  | moved hmotion | moving hmotion =>
    exact Turn.resets_of_update?_eq_none (Layout.updateOf?_of_isMotion a.layout hmotion now)
  | _ => exact Turn.resets_of_update?_eq_none rfl

/-- **A turn that loses nothing keeps what adds up**, and adds its own update to it. -/
theorem tallies_step (hsound : a.Sound) (hup : a.phase ≠ .disconnected)
    (hstep : a.step input now = .ok (b, out)) (hready : input ≠ .ready) (hstays : b.isUp = true)
    (hpurged : b.losses.purged = 0) (hfull : b.losses.tableFull = 0)
    (hresets : b.losses.resets = 0) (h : Tallies a.tables a.backlog.pending held)
    (hheld : ∀ t u, (held' t u : Int) = held t u + net t u (a.layout.updateOf? input now).toList)
    (hhigh : ∀ t u, held' t u ≤ 32767) : Tallies b.tables b.backlog.pending held' := by
  have hsame : a.layout.updateOf? input now = none → held' = held := by
    intro hnone
    funext t u
    have hsum := hheld t u
    rw [hnone, Option.toList_none, net_nil] at hsum
    omega
  have hquiet : a.layout.updateOf? input now = none → Tallies a.tables a.backlog.pending held' := by
    intro hnone
    rw [hsame hnone]
    exact h
  have hnow : ∀ {key pressed e}, input = .key key pressed → a.layout.updateOf? input now = some e →
      a.phase = .idle → Tallies b.tables b.backlog.pending held' := by
    rintro key pressed e rfl he hidle
    obtain ⟨o, hupdate⟩ := update_of_step he hstep
    rw [Aggregator.update, hidle] at hupdate
    rw [he] at hheld
    have hpush := h.push hheld hhigh
    rw [(hsound.idle hidle).1] at hpush
    obtain ⟨hafter, hbacklog⟩ := tallies_applyNow hpush hsound.tables hupdate hfull
    rw [hbacklog, (hsound.idle hidle).1]
    exact hafter
  cases outcome_of_step hstep with
  | unbound hkey => exact hquiet (Layout.updateOf?_of_lookup hkey _ now)
  | ignored he hidle | applied he hidle => exact hnow rfl he hidle
  | @deferred key pressed _ e he hbusy =>
    rw [he] at hheld
    rcases hsound.toInShape.defer_cases e with ⟨hkept, htables, hpending⟩ | ⟨hreset, -, -⟩
    · have hnone := Saturating.eq_zero_of_raise_eq_zero ((a.purged_defer e).symm.trans hpurged)
      rw [htables, hpending, hnone, List.drop_zero]
      exact h.push hheld hhigh
    · rw [resets_defer, if_pos hreset] at hresets
      exact absurd (Saturating.eq_zero_of_raise_eq_zero hresets) Nat.one_ne_zero
  | moved hmotion | moving hmotion => exact hquiet (Layout.updateOf?_of_isMotion a.layout hmotion now)
  | stray | unmoved => exact hquiet rfl
  | late hsome hdown => exact absurd hdown hup
  | delivered hsome _ _ =>
    obtain ⟨c, hdrain, hb⟩ := drain_of_step hsome hup hstep
    rw [hb] at hfull ⊢
    have hgo := tallies_drainFrom h hsound.tables hdrain hfull
    rwa [hsame rfl]
  | connected hdown => exact absurd hdown hup
  | disconnected _ =>
    rw [disconnect, if_neg hup] at hstays
    cases hstays
  | started => exact absurd rfl hready

end Aggregator

/-! ## Sessions -/

/-- Where nothing waits, a host that comes finds nothing held, and nothing waits for it. -/
theorem vacant_of_opens (hsound : a.Sound) (hdown : a.phase = .disconnected) (hempty : a.backlog.pending = [])
    (hstep : a.step (.link true) now = .ok (b, out)) : b.tables = vacantTables ∧ b.backlog.pending = [] := by
  have hmeeting : (a.meeting now).backlog.pending = [] := by
    show a.backlog.pending.drop _ = []
    rw [hempty, List.drop_nil]
  cases outcome_of_step hstep with
  | moved hmotion | moving hmotion => cases hmotion
  | unmoved hsame => cases hsame.mp hdown
  | connected _ hdrain =>
    rw [hmeeting] at hdrain
    cases hdrain with
    | update hl => simp at hl
    | motion _ _ hmoved => exact absurd rfl hmoved
    | idle => exact ⟨(hsound.disconnected hdown).1, rfl⟩

/-- No key is down before the first turn. -/
theorem heldKeys_nil (layout : Layout) : heldKeys layout [] = fun _ _ => 0 := by
  funext t u
  apply List.countP_eq_zero.mpr
  simp [isDown]

/-- The turn in which a host comes leaves nothing to add up, and no table that was cleared unnoticed. -/
theorem tallies_opening (h : History layout window past opening.before) (hopens : opening.opens = true)
    (hempty : opening.before.backlog.pending = [])
    (hstep : opening.before.step opening.input opening.now = .ok (opening.after, opening.said)) :
    Tallies opening.after.tables opening.after.backlog.pending (heldKeys layout [])
      ∧ ∀ t, wiped t (past ++ [opening]) = false := by
  obtain ⟨hinput, hdown⟩ := Bool.and_eq_true_iff.mp hopens
  have hinput : opening.input = .link true := of_decide_eq_true hinput
  have hdown : opening.before.phase = .disconnected := of_decide_eq_true hdown
  rw [hinput] at hstep
  obtain ⟨htables, hpending⟩ := vacant_of_opens h.sound hdown hempty hstep
  refine ⟨?_, ?_⟩
  · rw [htables, hpending, heldKeys_nil]
    exact Tallies.vacant
  · intro t
    have hnone : opening.update? = none := by
      rw [Turn.update?, hinput]
      rfl
    rw [wiped_append_singleton, Turn.wipes, hopens, Turn.resets_of_update?_eq_none hnone]
    simp

/-- One turn more that loses nothing: what adds up to the keys that were down before it adds up to those that
    are down after it, and no table is cleared unnoticed. -/
theorem tallies_turn (h : History layout window turns a) (hup : a.phase ≠ .disconnected)
    (hstep : a.step input now = .ok (b, out)) (hready : input ≠ .ready) (hstays : b.isUp = true)
    (halternate : Turn.alternates session ⟨a, input, now, b, out⟩ = true) (hsize : layout.size ≤ 32767)
    (hpurged : Turn.Spares Losses.purged ⟨a, input, now, b, out⟩)
    (hfull : Turn.Spares Losses.tableFull ⟨a, input, now, b, out⟩)
    (hresets : Turn.Spares Losses.resets ⟨a, input, now, b, out⟩)
    (htallies : Tallies a.tables a.backlog.pending (heldKeys layout session)) :
    Tallies b.tables b.backlog.pending (heldKeys layout (session ++ [⟨a, input, now, b, out⟩]))
      ∧ Turn.resets ⟨a, input, now, b, out⟩ = false := by
  have hpurged := lost_eq_zero h.sound hready hstep (fun _ _ => rfl) hpurged
  have hfull := lost_eq_zero h.sound hready hstep (fun _ _ => rfl) hfull
  have hresets := lost_eq_zero h.sound hready hstep (fun _ _ => rfl) hresets
  have hheld : ∀ t u, (heldKeys layout (session ++ [⟨a, input, now, b, out⟩]) t u : Int)
      = heldKeys layout session t u + net t u (a.layout.updateOf? input now).toList := by
    intro t u
    cases he : a.layout.updateOf? input now with
    | none =>
      have hsame : heldKeys layout (session ++ [⟨a, input, now, b, out⟩]) t u = heldKeys layout session t u :=
        heldKeys_of_update?_eq_none h.layout_eq he
      rw [hsame, Option.toList_none, net_nil, Int.add_zero]
    | some e => exact heldKeys_of_update?_eq_some h.layout_eq halternate he
  have hhigh : ∀ t u, heldKeys layout (session ++ [⟨a, input, now, b, out⟩]) t u ≤ 32767 :=
    fun t u => Nat.le_trans (heldKeys_le layout _ t u) hsize
  -- The turn is looked at as if nothing had been lost before it.
  obtain ⟨c, hclean, hb, hlost⟩ := exists_step_lost h.sound hready hstep
  rw [hlost] at hpurged hfull hresets
  have hsound : Sound { a with losses := .none } := { h.sound with }
  rw [hb] at hstays
  have hnext := tallies_step hsound hup hclean hready hstays hpurged hfull hresets htallies hheld hhigh
  have hkept := resets_eq_false_of_step hclean hresets
  have hsame : b.tables = c.tables ∧ b.backlog = c.backlog := by
    rw [hb]
    exact ⟨rfl, rfl⟩
  rw [hsame.1, hsame.2]
  exact ⟨hnext, hkept⟩

/-- **A session that loses nothing keeps what adds up**, and no table is cleared unnoticed in it. -/
theorem History.tallies (h : History layout window (past ++ opening :: session) a)
    (hsession : IsSession opening session) (hempty : opening.before.backlog.pending = [])
    (hsize : layout.size ≤ 32767)
    (halternate : Along (fun pre turn => turn.alternates pre = true) session)
    (hready : ∀ t ∈ session, t.input ≠ .ready)
    (hspares : ∀ t ∈ session,
      t.Spares Losses.purged ∧ t.Spares Losses.tableFull ∧ t.Spares Losses.resets) :
    Tallies a.tables a.backlog.pending (heldKeys layout session) ∧ a.phase ≠ .disconnected
      ∧ ∀ t, wiped t (past ++ opening :: session) = false := by
  induction session using List.reverseRecOn generalizing a with
  | nil =>
    obtain ⟨hbefore, hstep⟩ := h.along past opening [] rfl
    have hup := hsession.isUp hstep opening List.mem_cons_self
    obtain rfl := (hbefore.turn hstep).unique h
    obtain ⟨htallies, hwiped⟩ := tallies_opening hbefore hsession.opens hempty hstep
    exact ⟨htallies, of_decide_eq_true hup, hwiped⟩
  | append_singleton session turn ih =>
    rw [← List.cons_append, ← List.append_assoc] at h ⊢
    obtain ⟨c, hbefore, hpath⟩ := h.split
    cases hpath with
    | cons hstep hrest =>
      cases hrest
      -- The session was one without losses before the turn, too.
      obtain ⟨halternate, halternate'⟩ := along_append_singleton.mp halternate
      obtain ⟨hready, hready'⟩ := List.forall_mem_append.mp hready
      obtain ⟨hspares, hspares'⟩ := List.forall_mem_append.mp hspares
      obtain ⟨hlistens, hlistens'⟩ := List.forall_mem_append.mp hsession.listens
      obtain ⟨htallies, hup, hwiped⟩ := ih hbefore ⟨hsession.opens, hlistens⟩ halternate hready hspares
      obtain ⟨hpurged, hfull, hresets⟩ := List.forall_mem_singleton.mp hspares'
      have hstays := List.forall_mem_singleton.mp hlistens'
      obtain ⟨hnext, hkept⟩ := tallies_turn hbefore hup hstep (hready' _ (List.mem_singleton_self _)) hstays
        halternate' hsize hpurged hfull hresets htallies
      refine ⟨hnext, of_decide_eq_true hstays, ?_⟩
      intro t
      rw [wiped_append_singleton, Turn.wipes, hwiped, hkept]
      rfl

/-! ## Levels and reports -/

/-- The keys that a keyboard report lists are the highest usages of its table. -/
theorem HoldTable.keyboardReport_eq {table : HoldTable} {r : KeyboardReport}
    (h : table.keyboardReport = .ok r) :
    r = KeyboardReport.ofKeys (((table.holds.map Hold.usage).reverse.take Limits.keysPerReport).map
      UInt16.toUInt8) := by
  unfold keyboardReport at h
  split at h
  · cases h
    rw [listedKeys_eq]
  · cases h

/-- A usage has a hold exactly if it is held. -/
theorem HoldTable.WellFormed.mem_usages {table : HoldTable} (hwf : table.WellFormed) :
    u ∈ table.holds.map Hold.usage ↔ table.timesHeld u ≠ 0 := by
  rw [hwf.mem_map_usage, hwf.isSome_level?]

/-- The usages of a table, from the highest one down, are those that keys hold down. -/
theorem reverse_usages_eq {table : HoldTable} (hwf : table.WellFormed)
    (hlevels : ∀ u, table.timesHeld u = heldKeys layout session t u) :
    (table.holds.map Hold.usage).reverse = heldUsages layout session t := by
  apply eq_of_falling
  · exact List.pairwise_reverse.mpr (List.pairwise_map.mpr hwf.ascending_holds)
  · exact pairwise_heldUsages layout session t
  · intro u
    rw [List.mem_reverse, hwf.mem_usages, mem_heldUsages, hlevels]

/-- **Keys that share a usage are counted faithfully.** Let no more than 32767 keys be bound. Let a host begin to
    listen while nothing waits, and listen through the session, at whose beginning all keys count as up. Let the
    events of each key alternate in it, beginning with a press, and let the counters of updates dropped for their
    age, of presses without room and of resets stay as they are. A counter at its greatest value stays as it is
    whatever is lost, so where one of them is, let the turn lose nothing that it counts. Motion and
    acknowledgements may come in any order, and the ready notice does not come. Then wherever the session ends:
    - if no update waits, the level of each usage is the number of keys that produce it and are down, and a
      usage without such a key is not tracked;
    - if the link is idle, the last keyboard report lists the highest six of the usages that keys hold down, or
      all of them if they are fewer, and the last mouse report has exactly the buttons that keys hold down. What
      the host has not been told of yet it takes to be up. -/
theorem History.shared_keys_counted (h : History layout window (past ++ opening :: session) a)
    (hsession : IsSession opening session) (hempty : opening.before.backlog.pending = [])
    (hsize : layout.size ≤ 32767)
    (halternate : Along (fun pre turn => turn.alternates pre = true) session)
    (hready : ∀ t ∈ session, t.input ≠ .ready)
    (hspares : ∀ t ∈ session,
      t.Spares Losses.purged ∧ t.Spares Losses.tableFull ∧ t.Spares Losses.resets) :
    (a.backlog.pending = [] → ∀ t u, ((a.tables.get t).level? u).map Int16.toInt
        = if heldKeys layout session t u = 0 then none else some (heldKeys layout session t u : Int))
      ∧ (a.phase = .idle →
        (hostView (past ++ opening :: session)).keyboard
            = KeyboardReport.ofKeys (((heldUsages layout session .keyboard).take Limits.keysPerReport).map
              UInt16.toUInt8)
          ∧ ∀ u, HasButton (hostView (past ++ opening :: session)).buttons u
            ↔ heldKeys layout session .mouse u ≠ 0) := by
  obtain ⟨htallies, hup, hwiped⟩ := h.tallies hsession hempty hsize halternate hready hspares
  have hsound := h.sound
  have hlevels : a.backlog.pending = [] → ∀ t u, (a.tables.get t).timesHeld u = heldKeys layout session t u := by
    intro hnone
    rw [hnone] at htallies
    exact htallies.timesHeld_eq
  refine ⟨?_, ?_⟩
  · intro hnone t u
    rw [(hsound.tables t).wellFormed.map_toInt_level? u, hlevels hnone]
  · intro hidle
    have hlevels := hlevels (hsound.idle hidle).1
    have hagrees := h.agrees hup
    refine ⟨?_, ?_⟩
    · have hkeyboard : a.tables.keyboard.keyboardReport = .ok _ := (hagrees .keyboard).2 (hwiped .keyboard)
      have husages := reverse_usages_eq (hsound.tables .keyboard).wellFormed (hlevels .keyboard)
      rw [HoldTable.keyboardReport_eq hkeyboard, ← husages]
      rfl
    · intro u
      have hmouse : (hostView (past ++ opening :: session)).buttons = HoldTable.buttonBits a.tables.mouse.holds :=
        (hagrees .mouse).2 (hwiped .mouse)
      have hbuttons := hasButton_buttonBits (hsound.tables .mouse) u
      rw [(hsound.tables .mouse).wellFormed.isSome_level?, hlevels] at hbuttons
      rw [hmouse]
      exact hbuttons

/-- A layout with two keys for one usage, and a button. -/
def sharingLayout : Layout where
  bindings := [⟨1, 4, .keyboard⟩, ⟨2, 4, .keyboard⟩, ⟨3, 1, .mouse⟩]
  accepted := by decide

/-- The first of two keys goes down, the other one follows, a button goes down and the first key up, all but the
    first press while a report is on the way. When the link is idle again the usage is held once, and key and
    button are down for the host. -/
theorem shared_keys_counted_two_keys :
    ∃ opening session a, History sharingLayout 500 ([] ++ opening :: session) a
      ∧ (opening :: session).map Turn.stimulus
        = [(.link true, 0), (.key 1 true, 10), (.key 2 true, 11), (.key 3 true, 12), (.key 1 false, 13),
          (.motion 5 6, 14), (.delivered .keyboard, 15), (.delivered .mouse, 16), (.delivered .keyboard, 17),
          (.delivered .mouse, 18), (.delivered .mouse, 19)]
      ∧ a.phase = .idle
      ∧ (a.tables.keyboard.level? 4).map Int16.toInt = some 1
      ∧ (hostView ([] ++ opening :: session)).keyboard = KeyboardReport.ofKeys [4]
      ∧ HasButton (hostView ([] ++ opening :: session)).buttons 1 := by
  obtain ⟨turns, a, h, hinputs, hstate⟩ := exists_history sharingLayout 500
    [(.link true, 0), (.key 1 true, 10), (.key 2 true, 11), (.key 3 true, 12), (.key 1 false, 13),
      (.motion 5 6, 14), (.delivered .keyboard, 15), (.delivered .mouse, 16), (.delivered .keyboard, 17),
      (.delivered .mouse, 18), (.delivered .mouse, 19)]
    (fun turns a => turns.head?.any (fun t => t.opens && t.before.backlog.pending = [])
      && turns.tail.all (fun t => t.after.isUp && t.input ≠ .ready && decide (t.Spares Losses.purged)
        && decide (t.Spares Losses.tableFull) && decide (t.Spares Losses.resets))
      && decide (Along (fun pre turn => turn.alternates pre = true) turns.tail)
      && a.phase = .idle && heldKeys sharingLayout turns.tail .keyboard 4 = 1
      && heldKeys sharingLayout turns.tail .mouse 1 = 1
      && heldUsages sharingLayout turns.tail .keyboard = [4]) (by decide +kernel)
  cases turns with
  | nil => cases hinputs
  | cons opening session =>
    simp only [Bool.and_eq_true, decide_eq_true_eq, List.head?_cons, Option.any_some, List.tail_cons,
      List.all_eq_true] at hstate
    obtain ⟨⟨⟨⟨⟨⟨⟨hopens, hempty⟩, hturns⟩, halternate⟩, hidle⟩, hkey⟩, hbutton⟩, husages⟩ := hstate
    have hsession : IsSession opening session := ⟨hopens, fun t ht => (hturns t ht).1.1.1.1⟩
    have hall : History sharingLayout 500 ([] ++ opening :: session) a := h
    obtain ⟨hlevels, hhost⟩ := hall.shared_keys_counted hsession hempty (by decide)
      (of_decide_eq_true halternate) (fun t ht => (hturns t ht).1.1.1.2)
      (fun t ht => ⟨(hturns t ht).1.1.2, (hturns t ht).1.2, (hturns t ht).2⟩)
    obtain ⟨hkeyboard, hmouse⟩ := hhost hidle
    refine ⟨opening, session, a, hall, hinputs, hidle, ?_, ?_, ?_⟩
    · have hlevel := hlevels (h.sound.idle hidle).1 .keyboard 4
      rw [of_decide_eq_true hkey] at hlevel
      exact hlevel
    · rw [hkeyboard, of_decide_eq_true husages]
      rfl
    · rw [hmouse, of_decide_eq_true hbutton]
      decide

/-! ## Counters that cannot tell any more -/

/-- As many releases of key 4 as can wait, all of them from the beginning of time. -/
def waitingReleases : Backlog :=
  ⟨Limits.backlogPlaces, Limits.staleAfter, List.replicate Limits.backlogPlaces ⟨.keyboard, 4, -1, 0⟩⟩

/-- No host has come yet, and no more releases of key 4 can wait. -/
def flooded (l : Losses) : Aggregator :=
  { create Layout.standard Limits.staleAfter with backlog := waitingReleases, losses := l }

/-- One more release takes the place of the oldest one, which is dropped for its age. -/
theorem step_flooded (l : Losses) :
    (flooded l).step (.key 4 false) 0 = .ok (flooded (l.addPurged 1), [.activity]) := by
  have hlookup : Layout.standard.lookup 4 = some ⟨4, 4, .keyboard⟩ := by decide
  have hstore : waitingReleases.store ⟨.keyboard, 4, -1, 0⟩ true = (waitingReleases, ⟨1, false, true⟩) := by
    decide
  simp [step, key, flooded, create, hlookup, Aggregator.update, defer, hstore, pure, Except.pure, bind, Except.bind]

/-- Releases of a key that is up, one after the other, drive the counter up as far as one likes. -/
theorem exists_flooded (n : Nat) :
    ∃ turns, History Layout.standard Limits.staleAfter turns (flooded (Losses.none.addPurged n))
      ∧ turns.map Turn.stimulus = List.replicate (Limits.backlogPlaces + n) (.key 4 false, 0) := by
  induction n with
  | zero =>
    have hrun : (create Layout.standard Limits.staleAfter).run
        (List.replicate Limits.backlogPlaces (.key 4 false, 0))
          = .ok (flooded .none, List.replicate Limits.backlogPlaces .activity) := rfl
    obtain ⟨turns, h, hinputs, -⟩ := History.new.append_run hrun
    exact ⟨turns, h, hinputs⟩
  | succ n ih =>
    obtain ⟨turns, h, hinputs⟩ := ih
    have hmore : (Losses.none.addPurged n).addPurged 1 = Losses.none.addPurged (n + 1) := by
      simp [Losses.addPurged, Saturating.raise_raise]
    have hlonger := h.turn (step_flooded _)
    rw [hmore] at hlonger
    refine ⟨_, hlonger, ?_⟩
    rw [List.map_append, hinputs, ← Nat.add_assoc, List.replicate_succ']
    rfl

/-- **A counter at its greatest value hides a loss.** Releases of key 4 have driven the counter of updates dropped
    for their age to its greatest value. A host comes and goes, and comes again; no key is down and nothing waits. In
    its session the events of each key alternate and no counter changes; but the release of key 4 waits behind
    a report, and is dropped for its age as key 5 goes down. When the link is idle again the usage is held
    once, and no key holds it down. -/
theorem shared_keys_miscounted_full_counter :
    ∃ past opening session a, History Layout.standard Limits.staleAfter (past ++ opening :: session) a
      ∧ past.map Turn.stimulus
        = List.replicate 4294967307 (.key 4 false, 0) ++ [(.link true, 0), (.link false, 0)]
      ∧ (opening :: session).map Turn.stimulus
        = [(.link true, 0), (.key 4 true, 10), (.key 4 false, 20), (.key 5 true, 600), (.delivered .keyboard, 601),
          (.delivered .mouse, 602)]
      ∧ IsSession opening session ∧ opening.before.backlog.pending = []
      ∧ Along (fun pre turn => turn.alternates pre = true) session
      ∧ (∀ t ∈ session, t.input ≠ .ready ∧ t.after.losses = t.before.losses)
      ∧ a.backlog.pending = [] ∧ a.phase = .idle
      ∧ (a.tables.keyboard.level? 4).map Int16.toInt = some 1
      ∧ heldKeys Layout.standard session .keyboard 4 = 0 := by
  obtain ⟨turns, h, hflood⟩ := exists_flooded 4294967295
  obtain ⟨more, a, hall, hinputs, hstate⟩ := h.exists_longer
    [(.link true, 0), (.link false, 0), (.link true, 0), (.key 4 true, 10), (.key 4 false, 20), (.key 5 true, 600),
      (.delivered .keyboard, 601), (.delivered .mouse, 602)]
    (fun more a => (more.drop 2).head?.any (fun t => t.opens && t.before.backlog.pending = [])
      && (more.drop 3).all (fun t => t.after.isUp && t.input ≠ .ready && t.after.losses = t.before.losses)
      && decide (Along (fun pre turn => turn.alternates pre = true) (more.drop 3))
      && a.backlog.pending = [] && a.phase = .idle && (a.tables.keyboard.level? 4).map Int16.toInt = some 1
      && heldKeys Layout.standard (more.drop 3) .keyboard 4 = 0) (by decide +kernel)
  rcases more with _ | ⟨up, _ | ⟨down, _ | ⟨opening, session⟩⟩⟩
  · simp at hinputs
  · simp at hinputs
  · simp at hinputs
  · obtain ⟨hmeeting, hsession⟩ := List.append_inj
      (show [up, down].map Turn.stimulus ++ (opening :: session).map Turn.stimulus = [_, _] ++ _ from hinputs) rfl
    simp only [List.drop, List.head?_cons, Option.any_some, List.all_eq_true, Bool.and_eq_true,
      decide_eq_true_eq] at hstate
    obtain ⟨⟨⟨⟨⟨⟨⟨hopens, hempty⟩, hturns⟩, halternate⟩, hdone⟩, hidle⟩, hlevel⟩, hkey⟩ := hstate
    refine ⟨turns ++ [up, down], opening, session, a, ?_, ?_, hsession, ⟨hopens, fun t ht => (hturns t ht).1.1⟩,
      hempty, of_decide_eq_true halternate, fun t ht => ⟨(hturns t ht).1.2, (hturns t ht).2⟩, hdone, hidle, hlevel,
      of_decide_eq_true hkey⟩
    · rw [List.append_assoc]
      exact hall
    · rw [List.map_append, hflood, hmeeting, show Limits.backlogPlaces + 4294967295 = 4294967307 from rfl]

end Peripheral
