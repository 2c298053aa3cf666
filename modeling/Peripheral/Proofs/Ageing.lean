import Peripheral.Proofs.Storing

/-!
# `Peripheral.Proofs.Ageing` — how gradual ageing is

Ageing makes one pass for each waiting update, in order, and takes time to be the expiry of that update. A pass
is meant to reach only what came no later than its update, so that ageing ends with the oldest updates that can
go, and younger ones stay. But the ages in a pass are counted around the clock. What came after its update and
before its expiry has a negative age, and one that comes out fresh; what came after its expiry comes out stale.
So a pass is as meant unless its update is followed by a pause of more than a window, and then it reaches
everything.

## Contents
- `Backlog.IsPass`, `Backlog.AgesGradually`: the passes that are made, and what they are meant to do.
- `Backlog.FollowedSoon`, `stale_forall_iff`: when a pass reaches only what came no later than its update.
- `Backlog.agesGradually_iff`: when ageing is gradual.
- `Backlog.not_agesGradually_paused`: a pause that costs a young pair.
-/

namespace Peripheral

/-- The first success is the same one for two measures that agree wherever everything before was a failure. -/
theorem map_find?_pos_eq {α : Type} {p q : α → Nat} {l : List α}
    (hsame : ∀ i x, l[i]? = some x → (∀ y ∈ l.take i, p y = 0) → p x = q x) :
    (l.find? fun x => 0 < p x).map p = (l.map q).find? fun n => 0 < n := by
  induction l with
  | nil => rfl
  | cons x rest ih =>
    have hfirst : p x = q x := by
      refine hsame 0 x rfl ?_
      intro y hy
      cases hy
    rw [List.find?_cons, List.map_cons, List.find?_cons, ← hfirst]
    by_cases hpos : 0 < p x
    · simp [hpos]
    · simp only [hpos, decide_false]
      apply ih
      intro i y hy hbefore
      refine hsame (i + 1) y hy ?_
      intro z hz
      rw [List.take_succ_cons] at hz
      rcases List.mem_cons.mp hz with rfl | hz
      · omega
      · exact hbefore z hz

namespace Backlog

/-! ## Passes -/

/-- Ageing makes a pass for `f`, at position `i`: no pass before has dropped anything. -/
def IsPass (b : Backlog) (i : Nat) (f : Pending) : Prop :=
  b.pending[i]? = some f ∧ ∀ g ∈ b.pending.take i, b.purgeable (g.time + b.window) = 0

/-- The updates that a pass for `f` treats as stale. -/
def reached (b : Backlog) (f : Pending) : List Pending :=
  b.pending.take (staleCount b.window (f.time + b.window) b.pending)

/-- How many of the updates that came no later than `f` can go. -/
def ripe (b : Backlog) (base : UInt32) (f : Pending) : Nat :=
  closedCount (b.pending.takeWhile fun e => e.since base ≤ f.since base)

/-- What ageing is meant to drop: what can go of the updates that came no later than the first one for which
    there is anything. -/
def firstRipe? (b : Backlog) (base : UInt32) : Option Nat :=
  (b.pending.map (b.ripe base)).find? fun n => 0 < n

/-- **Gradual ageing** to make room for `e`. Every pass treats as stale, and drops, only updates that came no
    later than the one it is made for; so what is dropped is what is ripe first, and everything is given up only
    if nothing ever is. -/
structure AgesGradually (b : Backlog) (base : UInt32) (e : Pending) : Prop where
  stale : ∀ i f, b.IsPass i f → ∀ g ∈ b.reached f, g.since base ≤ f.since base
  dropped : ∀ i f, b.IsPass i f → ∀ g ∈ b.pending.take (b.purgeable (f.time + b.window)),
    g.since base ≤ f.since base
  stored : b.store e true = match b.firstRipe? base with
    | some n => ({ b with pending := b.pending.drop n ++ [e] }, ⟨n, false, true⟩)
    | none => ({ b with pending := [e] }, ⟨0, true, true⟩)

/-- No pause behind `f` outlasts the window: if any updates came later, one of them came within the window. -/
def FollowedSoon (b : Backlog) (base : UInt32) (f : Pending) : Prop :=
  (∃ g ∈ b.pending, f.since base < g.since base) →
    ∃ g ∈ b.pending, f.since base < g.since base ∧ g.since base ≤ f.since base + b.window.toNat

instance (b : Backlog) (base : UInt32) (f : Pending) : Decidable (b.FollowedSoon base f) := by
  unfold FollowedSoon
  infer_instance

variable {b : Backlog} {base : UInt32} {e f : Pending}

/-- The purges of the passes, one after the other. -/
theorem ageing?_map_purgeable (b : Backlog) :
    b.ageing?.map b.purgeable
      = (b.pending.find? fun f => 0 < b.purgeable (f.time + b.window)).map
          fun f => b.purgeable (f.time + b.window) := by
  rw [ageing?, List.find?_map, Option.map_map]
  rfl

/-- **A pass reaches only what came no later than its update** exactly if the update is followed soon. -/
theorem stale_forall_iff (harrival : ByArrival base b.pending)
    (hspan : SpanBelow base b.window 4294967296 b.pending) (hf : f ∈ b.pending) :
    (∀ g ∈ b.reached f, g.since base ≤ f.since base) ↔ b.FollowedSoon base f := by
  have hstale : ∀ g ∈ b.pending, b.window ≤ g.age (f.time + b.window)
      ↔ g.since base ≤ f.since base ∨ f.since base + b.window.toNat < g.since base := by
    intro g hg
    exact window_le_age_expiry_iff (hspan g hg f hf)
  constructor
  · rintro hreached ⟨g, hg, hlater⟩
    apply Classical.byContradiction
    intro hpause
    -- Without an update inside the window, everything is stale, `g` included.
    have hall : b.pending.length ≤ staleCount b.window (f.time + b.window) b.pending := by
      rw [le_staleCount_iff (Nat.le_refl _), List.take_length]
      intro x hx
      rw [hstale x hx]
      by_cases hxf : x.since base ≤ f.since base
      · exact .inl hxf
      · right
        apply Nat.lt_of_not_le
        intro hsoon
        exact hpause ⟨x, hx, by omega, hsoon⟩
    have := hreached g (by rwa [reached, List.take_of_length_le hall])
    omega
  · intro hsoon g hg
    apply Nat.le_of_not_lt
    intro hlater
    have hgb : g ∈ b.pending := List.mem_of_mem_take hg
    obtain ⟨x, hx, hxf, hxw⟩ := hsoon ⟨g, hgb, hlater⟩
    have hfresh : ¬ b.window ≤ x.age (f.time + b.window) := by
      rw [hstale x hx]
      omega
    -- The update that came soon is fresh, so it stands behind `g`, which came no earlier than it.
    have hg' := (hstale g hgb).mp (window_le_age_of_mem_stale hg)
    rw [← List.take_append_drop (staleCount b.window (f.time + b.window) b.pending) b.pending] at hx
    rcases List.mem_append.mp hx with hx | hx
    · exact hfresh (window_le_age_of_mem_stale hx)
    · have := harrival.since_le hg hx
      omega

/-- A pass that reaches only what came no later than its update reaches all of that. -/
theorem purgeable_eq_ripe (hspan : SpanBelow base b.window 4294967296 b.pending) (hf : f ∈ b.pending)
    (hreached : ∀ g ∈ b.reached f, g.since base ≤ f.since base) :
    b.purgeable (f.time + b.window) = b.ripe base f := by
  have hle := staleCount_le b.window (f.time + b.window) b.pending
  have hripe := (List.takeWhile_prefix (l := b.pending) fun e => e.since base ≤ f.since base).length_le
  have hsame : staleCount b.window (f.time + b.window) b.pending
      = (b.pending.takeWhile fun e => e.since base ≤ f.since base).length := by
    apply Nat.le_antisymm
    · rw [le_length_takeWhile_iff hle]
      intro g hg
      exact decide_eq_true (hreached g hg)
    · rw [le_staleCount_iff hripe]
      intro g hg
      have hgf := of_decide_eq_true ((le_length_takeWhile_iff hripe).mp (Nat.le_refl _) g hg)
      exact (window_le_age_expiry_iff (hspan g (List.mem_of_mem_take hg) f hf)).mpr (.inl hgf)
  rw [ripe, purgeable, hsame, ← List.prefix_iff_eq_take.mp (List.takeWhile_prefix _)]

/-! ## Gradual ageing -/

/-- Passes that reach only what they are meant to reach end with what is ripe first. -/
theorem ageing?_eq_firstRipe? (hspan : SpanBelow base b.window 4294967296 b.pending)
    (hstale : ∀ i f, b.IsPass i f → ∀ g ∈ b.reached f, g.since base ≤ f.since base) :
    b.ageing?.map b.purgeable = b.firstRipe? base := by
  rw [ageing?_map_purgeable]
  apply map_find?_pos_eq
  intro i f hat hbefore
  exact purgeable_eq_ripe hspan (List.mem_of_getElem? hat) (hstale i f ⟨hat, hbefore⟩)

/-- The fewer updates are stale, the fewer of them can go. -/
theorem purgeable_mono {now later : UInt32}
    (hle : staleCount b.window now b.pending ≤ staleCount b.window later b.pending) :
    b.purgeable now ≤ b.purgeable later := by
  have hpart := closedCount_take_le (b.pending.take (staleCount b.window later b.pending))
    (staleCount b.window now b.pending)
  rwa [List.take_take, Nat.min_eq_left hle] at hpart

/-- Where a purge has found nothing to drop, ageing gets to the first update behind which there is a pause. All up
    to that update is stale by the time the purge is made. -/
theorem isPass_of_pause {i : Nat} (harrival : ByArrival base b.pending)
    (hspan : SpanBelow base b.window 4294967296 b.pending)
    (hpast : ∀ g ∈ b.pending, g.since base ≤ e.since base) (hnone : b.purgeable e.time = 0)
    (hat : b.pending[i]? = some f) (hpause : ¬ b.FollowedSoon base f)
    (hbefore : ∀ g ∈ b.pending.take i, b.FollowedSoon base g) : b.IsPass i f := by
  refine ⟨hat, ?_⟩
  intro g hg
  have hgb := List.mem_of_mem_take hg
  have hgf : g.since base ≤ f.since base := by
    have hfirst : (b.pending.drop i)[0]? = some f := by
      rw [List.getElem?_drop, Nat.add_zero]
      exact hat
    exact harrival.since_le hg (List.mem_of_getElem? hfirst)
  have hreached := (stale_forall_iff harrival hspan hgb).mpr (hbefore g hg)
  -- What the pass reaches came no later than `f`, more than a window ago.
  have hpaused : f.since base + b.window.toNat < e.since base := by
    unfold FollowedSoon at hpause
    apply Nat.lt_of_not_le
    intro hsoon
    apply hpause
    rintro ⟨x, hx, hxf⟩
    exact ⟨x, hx, hxf, Nat.le_trans (hpast x hx) hsoon⟩
  have hstale : staleCount b.window (g.time + b.window) b.pending ≤ staleCount b.window e.time b.pending := by
    rw [le_staleCount_iff (staleCount_le _ _ _)]
    intro x hx
    have hxg := hreached x hx
    have hage := toNat_age (hpast x (List.mem_of_mem_take hx))
    rw [UInt32.le_iff_toNat_le, hage]
    show b.window.toNat ≤ e.since base - x.since base
    omega
  have := purgeable_mono hstale
  omega

/-- **When ageing is gradual.** In a backlog in use that is still full after the purge for a new update, exactly if
    no pause between its updates outlasts the window. -/
theorem agesGradually_iff {capacity clock : Nat} {window : UInt32} (hcap : 0 < capacity)
    (h : InUse capacity window base clock b) (hspan : SpanBelow base window 2147483648 b.pending)
    (hlater : clock ≤ e.since base) (hfull : (b.purge e.time).isFull = true) :
    b.AgesGradually base e ↔ ∀ f ∈ b.pending, b.FollowedSoon base f := by
  obtain ⟨rfl, rfl, hsize, harrival, hpast⟩ := h.orderly hcap
  have hspan' : SpanBelow base b.window 4294967296 b.pending := hspan.mono (by decide)
  constructor
  · intro hgradual
    have hall : ∀ (i : Nat) (f : Pending), b.pending[i]? = some f → b.FollowedSoon base f := by
      intro i
      induction i using Nat.strongRecOn with
      | ind i ih =>
        intro f hat
        apply Classical.byContradiction
        intro hpause
        -- Every pass before this one is for an update that is followed soon, so this pass is made.
        have hpass : b.IsPass i f := by
          refine isPass_of_pause harrival hspan' ?_ (purgeable_eq_zero_of_isFull hcap hsize hfull) hat hpause ?_
          · intro g hg
            exact Nat.le_trans (hpast g hg) hlater
          · intro g hg
            obtain ⟨j, hj, rfl⟩ := List.mem_take_iff_getElem.mp hg
            exact ih j (by omega) _ (List.getElem?_eq_getElem (by omega))
        exact hpause ((stale_forall_iff harrival hspan' (List.mem_of_getElem? hat)).mp
          (hgradual.stale i f hpass))
    intro f hf
    obtain ⟨i, hi, rfl⟩ := List.mem_iff_getElem.mp hf
    exact hall i _ (List.getElem?_eq_getElem hi)
  · intro hsoon
    have hstale : ∀ i f, b.IsPass i f → ∀ g ∈ b.reached f, g.since base ≤ f.since base := by
      intro i f hpass
      have hf := List.mem_of_getElem? hpass.1
      exact (stale_forall_iff harrival hspan' hf).mpr (hsoon f hf)
    refine ⟨hstale, ?_, ?_⟩
    · intro i f hpass g hg
      exact hstale i f hpass g (List.take_subset_take_left _ (b.purgeable_le_staleCount _) hg)
    · rw [store_of_isFull hcap hsize hfull, ← ageing?_eq_firstRipe? hspan' hstale, if_pos rfl]
      cases b.ageing? with
      | none => rfl
      | some expiry => rfl

/-- Two fresh pairs fill the backlog: ageing drops the older one. -/
theorem agesGradually_iff_two_pairs :
    ∃ clock b, InUse 4 100 0 clock b ∧ SpanBelow 0 100 2147483648 b.pending ∧ clock ≤ 4
      ∧ (b.purge 4).isFull = true ∧ (∀ f ∈ b.pending, b.FollowedSoon 0 f)
      ∧ b.AgesGradually 0 ⟨.keyboard, 6, 1, 4⟩
      ∧ (b.store ⟨.keyboard, 6, 1, 4⟩ true).2 = ⟨2, false, true⟩ := by
  have hpress : InUse 4 100 0 _ _ :=
    InUse.empty.store (e := ⟨.keyboard, 4, 1, 0⟩) (Nat.zero_le _) true
  have hrelease := hpress.store (e := ⟨.keyboard, 4, -1, 1⟩) (by decide) true
  have hpress' := hrelease.store (e := ⟨.keyboard, 5, 1, 2⟩) (by decide) true
  have hrelease' := hpress'.store (e := ⟨.keyboard, 5, -1, 3⟩) (by decide) true
  have hgradual := agesGradually_iff (e := ⟨.keyboard, 6, 1, 4⟩) (by decide) hrelease' (by decide +kernel)
    (by decide) (by decide +kernel)
  exact ⟨_, _, hrelease', by decide +kernel, by decide, by decide +kernel, by decide +kernel,
    hgradual.mpr (by decide +kernel), by decide +kernel⟩

/-- A pause of a second behind the first press: the pass for that press already reaches everything, and a young
    pair is dropped with the old one, which alone would have made room. -/
theorem not_agesGradually_paused :
    ∃ clock b, InUse 4 100 0 clock b ∧ SpanBelow 0 100 2147483648 b.pending ∧ clock ≤ 1003
      ∧ (b.purge 1003).isFull = true ∧ b.firstRipe? 0 = some 2
      ∧ (b.store ⟨.keyboard, 6, 1, 1003⟩ true).2 = ⟨4, false, true⟩
      ∧ ¬ b.AgesGradually 0 ⟨.keyboard, 6, 1, 1003⟩ := by
  have hpress : InUse 4 100 0 _ _ :=
    InUse.empty.store (e := ⟨.keyboard, 4, 1, 0⟩) (Nat.zero_le _) true
  have hrelease := hpress.store (e := ⟨.keyboard, 4, -1, 1000⟩) (by decide) true
  have hpress' := hrelease.store (e := ⟨.keyboard, 5, 1, 1001⟩) (by decide) true
  have hrelease' := hpress'.store (e := ⟨.keyboard, 5, -1, 1002⟩) (by decide) true
  refine ⟨_, _, hrelease', by decide +kernel, by decide, by decide +kernel, by decide +kernel,
    by decide +kernel, ?_⟩
  intro hgradual
  have hpurged := congrArg (fun r => r.2.purged) hgradual.stored
  exact absurd hpurged (by decide +kernel)

end Backlog

end Peripheral
