import DS4.Lib.Groups
import Mathlib.Algebra.BigOperators.Group.List.Lemmas
import Mathlib.Algebra.Group.Action.Defs

namespace DS4.FlashMoe

/-!
# Routed MoE prefill — the routing table and its reference lists

The router picks `DS4_N_EXPERT_ACTIVE_USED` experts for each token of a batch, with a weight
each.  Prefill regroups these pairs by expert: every expert that was picked gets a segment of
`ref_tokens` and `ref_weights` with the tokens that picked it, so that its weights are read once.

* `RoutingTable`, `MoeKernels` — what the router wrote, and the experts as exact functions.
* `countRefs`, `refGroups`, `refLists` — the counts, the segments and what they hold.
* `Grouped` — what the reference lists are for; `sum_contrib` puts a row together again.
-/

open DS4.Lib

variable {W X R : Type*}

/-- What the router wrote for a batch of `n_tokens`: pair `t * used + k` is the `k`-th expert of
    token `t`.  `used` is `DS4_N_EXPERT_ACTIVE_USED`. -/
structure RoutingTable (W : Type*) where
  nTokens : Nat
  used : Nat
  trueIds : Nat → Int
  pairWeights : Nat → W

namespace RoutingTable

variable (rt : RoutingTable W)

def nPairs : Nat := rt.nTokens * rt.used

/-- `true_ids`, as a list. -/
def ids : List Int := (List.range rt.nPairs).map rt.trueIds

/-- Every pair with its expert, in the order of the loops: token by token. -/
def entries : List (Int × (Nat × W)) :=
  (List.range rt.nTokens).flatMap fun t =>
    (List.range rt.used).map fun k =>
      (rt.trueIds (t * rt.used + k), t, rt.pairWeights (t * rt.used + k))

theorem map_fst_entries : rt.entries.map Prod.fst = rt.ids := by
  have hrows : ∀ n, ((List.range n).flatMap fun t =>
      (List.range rt.used).map fun k => rt.trueIds (t * rt.used + k)) =
      (List.range (n * rt.used)).map rt.trueIds := by
    intro n
    induction n with
    | zero => simp
    | succ n ih =>
      rw [List.range_succ, List.flatMap_append, ih, Nat.succ_mul, List.range_add,
        List.map_append]
      simp [Function.comp_def]
  have := hrows rt.nTokens
  unfold entries ids nPairs
  rw [← this, List.map_flatMap]
  simp [Function.comp_def]

theorem mem_entries {p : Int × (Nat × W)} :
    p ∈ rt.entries ↔ ∃ t < rt.nTokens, ∃ k < rt.used,
      p = (rt.trueIds (t * rt.used + k), t, rt.pairWeights (t * rt.used + k)) := by
  unfold entries
  simp only [List.mem_flatMap, List.mem_range, List.mem_map]
  constructor
  · rintro ⟨t, ht, k, hk, rfl⟩
    exact ⟨t, ht, k, hk, rfl⟩
  · rintro ⟨t, ht, k, hk, rfl⟩
    exact ⟨t, ht, k, hk, rfl⟩

end RoutingTable

/-- The input rows, and each expert as an exact function of a row. -/
structure MoeKernels (X R : Type*) where
  x : Nat → X
  expert : Int → X → R

/-! ### The reference lists -/

/-- The pass that counts how often each expert was picked; an invalid id ends it. -/
def countRefs (nExpert : Nat) (ids : List Int) : Option (Counted Int) :=
  ids.foldlM (fun c expert =>
    if expert < 0 ∨ (nExpert : Int) ≤ expert then none else some (c.add expert)) ⟨fun _ => 0, []⟩

theorem countRefs_eq {nExpert : Nat} {ids : List Int}
    (hvalid : ∀ e ∈ ids, 0 ≤ e ∧ e < nExpert) : countRefs nExpert ids = some (countKeys ids) := by
  have hrun : ∀ (ids : List Int) (c : Counted Int), (∀ e ∈ ids, 0 ≤ e ∧ e < nExpert) →
      ids.foldlM (fun c expert =>
        if expert < 0 ∨ (nExpert : Int) ≤ expert then none else some (c.add expert)) c =
        some (ids.foldl Counted.add c) := by
    intro ids
    induction ids with
    | nil => exact fun _ _ => rfl
    | cons e ids ih =>
      intro c hvalid
      have he := hvalid e (List.mem_cons_self ..)
      rw [List.foldlM_cons, if_neg (by omega)]
      exact ih _ fun e' he' => hvalid e' (List.mem_cons_of_mem _ he')
  exact hrun ids _ hvalid

/-- One expert's segment of the reference lists. -/
structure RefGroup where
  expert : Int
  start : Nat
  refs : Nat
  deriving DecidableEq, Repr

/-- `unique[ui]`, `offsets[ui]` and `offsets[ui + 1] - offsets[ui]`, for every `ui`. -/
def refGroups (counts : Int → Nat) (unique : List Int) : List RefGroup :=
  (List.range unique.length).filterMap fun ui =>
    unique[ui]?.map fun expert =>
      { expert, start := groupOffset counts unique ui
        refs := groupOffset counts unique (ui + 1) - groupOffset counts unique ui }

/-- `ref_tokens` and `ref_weights`: `cursor` starts at the segments, and every pair goes to the
    place of its expert's cursor.  `fresh` is what the arrays hold before.  The loops take the
    entries in order; the threads of a GPU kernel take them in any order. -/
def refLists (entries : List (Int × (Nat × W))) (counts : Int → Nat) (unique : List Int)
    (fresh : Nat → Nat × W) : Nat → Nat × W :=
  (placeAll { cursor := fun e => groupOffset counts unique (unique.idxOf e), slots := fresh }
    entries).slots

/-- What one expert adds to the rows of the tokens that picked it. -/
def expertRows [SMul W R] (K : MoeKernels X R) (e : Int) (refs : List (Nat × W)) :
    List (Nat × R) :=
  refs.map fun p => (p.1, p.2 • K.expert e (K.x p.1))

/-! ### What they are for -/

/-- The segments hold, expert by expert, every pair of the table once. -/
structure Grouped (nExpert : Nat) (rt : RoutingTable W) (gs : List RefGroup)
    (refs : Nat → Nat × W) : Prop where
  nodup : (gs.map RefGroup.expert).Nodup
  covers : ∀ p ∈ rt.entries, p.1 ∈ gs.map RefGroup.expert
  valid : ∀ g ∈ gs, 0 ≤ g.expert ∧ g.expert < nExpert
  picked : ∀ g ∈ gs, g.refs = rt.ids.count g.expert ∧ 0 < g.refs
  rows : ∀ g ∈ gs, (segment refs g.start g.refs).Perm (entriesOf g.expert rt.entries)

theorem mem_refGroups {counts : Int → Nat} {unique : List Int} {g : RefGroup} :
    g ∈ refGroups counts unique ↔ ∃ ui, ∃ h : ui < unique.length,
      g = { expert := unique[ui], start := groupOffset counts unique ui,
            refs := counts unique[ui] } := by
  unfold refGroups
  simp only [List.mem_filterMap, List.mem_range]
  constructor
  · rintro ⟨ui, hui, hg⟩
    refine ⟨ui, hui, ?_⟩
    rw [List.getElem?_eq_getElem hui, Option.map_some, Option.some.injEq] at hg
    rw [← hg, groupOffset_succ counts hui]
    simp
  · rintro ⟨ui, hui, rfl⟩
    refine ⟨ui, hui, ?_⟩
    rw [List.getElem?_eq_getElem hui, groupOffset_succ counts hui]
    simp

theorem map_expert_refGroups (counts : Int → Nat) (unique : List Int) :
    (refGroups counts unique).map RefGroup.expert = unique := by
  have hget : ∀ n ≤ unique.length, (List.range n).filterMap (fun ui => unique[ui]?) =
      unique.take n := by
    intro n
    induction n with
    | zero => simp
    | succ n ih =>
      intro hn
      rw [List.range_succ, List.filterMap_append, ih (by omega), List.take_add_one]
      rw [List.getElem?_eq_getElem (by omega)]
      simp [List.getElem?_eq_getElem (show n < unique.length by omega)]
  unfold refGroups
  rw [List.map_filterMap]
  have hsame : (fun ui => ((unique[ui]?).map fun expert =>
      ({ expert, start := groupOffset counts unique ui
         refs := groupOffset counts unique (ui + 1) - groupOffset counts unique ui }
        : RefGroup)).map RefGroup.expert) = fun ui => unique[ui]? := by
    funext ui
    cases unique[ui]? <;> rfl
  rw [hsame, hget _ (Nat.le_refl _), List.take_length]

/-- The reference lists the prefill builds are grouped by expert, in whatever order the pairs
    are placed. -/
theorem grouped_refLists {nExpert : Nat} {rt : RoutingTable W} {unique : List Int}
    {entries : List (Int × (Nat × W))} (hvalid : ∀ e ∈ rt.ids, 0 ≤ e ∧ e < nExpert)
    (hunique : unique.Perm (countKeys rt.ids).unique) (hentries : entries.Perm rt.entries)
    (fresh : Nat → Nat × W) :
    Grouped nExpert rt (refGroups (countKeys rt.ids).counts unique)
      (refLists entries (countKeys rt.ids).counts unique fresh) := by
  have hcounts : (countKeys rt.ids).counts = rt.ids.count := funext (countKeys_counts rt.ids)
  have hnodup : unique.Nodup := hunique.nodup_iff.mpr (nodup_unique_countKeys rt.ids)
  have hmem : ∀ e, e ∈ unique ↔ e ∈ rt.ids := fun e =>
    hunique.mem_iff.trans mem_unique_countKeys
  have hcovers : ∀ p ∈ rt.entries, p.1 ∈ unique := fun p hp => by
    rw [hmem, ← rt.map_fst_entries]
    exact List.mem_map_of_mem hp
  have hplaced : ∀ e, (entries.map Prod.fst).count e = rt.ids.count e := fun e => by
    rw [← rt.map_fst_entries]
    exact (hentries.map _).count_eq e
  rw [hcounts]
  refine ⟨?_, ?_, ?_, ?_, ?_⟩
  · rw [map_expert_refGroups]
    exact hnodup
  · rw [map_expert_refGroups]
    exact hcovers
  · intro g hg
    obtain ⟨ui, hui, rfl⟩ := (mem_refGroups).mp hg
    exact hvalid _ ((hmem _).mp (List.getElem_mem hui))
  · intro g hg
    obtain ⟨ui, hui, rfl⟩ := (mem_refGroups).mp hg
    exact ⟨rfl, List.count_pos_iff.mpr ((hmem _).mp (List.getElem_mem hui))⟩
  · intro g hg
    obtain ⟨ui, hui, rfl⟩ := (mem_refGroups).mp hg
    have hidx : unique.idxOf unique[ui] = ui := hnodup.idxOf_getElem ui hui
    have hseg := segment_placeAll
      (Placed.mk (fun e => groupOffset rt.ids.count unique (unique.idxOf e)) fresh)
      (fun p hp => hcovers p (hentries.mem_iff.mp hp))
      (fun e _ => by simp only [hplaced]) (List.getElem_mem hui)
    simp only [hplaced, hidx] at hseg
    exact (List.Perm.of_eq hseg).trans (entriesOf_perm hentries unique[ui])

/-! ### Rows -/

section Rows

variable [AddCommMonoid R] [SMul W R]

/-- What expert `e` owes row `t`. -/
def contrib (K : MoeKernels X R) (rt : RoutingTable W) (e : Int) (t : Nat) : R :=
  (((expertRows K e (entriesOf e rt.entries)).filter fun p => p.1 = t).map Prod.snd).sum

/-- Row `t` of the routed output: every pair of the token once, with its weight. -/
def routedRow (K : MoeKernels X R) (rt : RoutingTable W) (t : Nat) : R :=
  ((List.range rt.used).map fun k =>
    rt.pairWeights (t * rt.used + k) • K.expert (rt.trueIds (t * rt.used + k)) (K.x t)).sum

variable {nExpert : Nat} {rt : RoutingTable W} {gs : List RefGroup} {refs : Nat → Nat × W}

/-- Adding an expert's rows pays what it owes. -/
theorem Grouped.scatterAdd_expertRows (h : Grouped nExpert rt gs refs) {g : RefGroup} (hg : g ∈ gs)
    (K : MoeKernels X R) (out : Nat → R) (t : Nat) :
    scatterAdd out (expertRows K g.expert (segment refs g.start g.refs)) t =
      out t + contrib K rt g.expert t := by
  have hrows := ((((h.rows g hg).map fun p => (p.1, p.2 • K.expert g.expert (K.x p.1))).filter
    fun p => p.1 = t).map Prod.snd).sum_eq
  rw [scatterAdd_apply]
  exact congrArg (out t + ·) hrows

theorem contrib_eq (K : MoeKernels X R) (rt : RoutingTable W) (e : Int) (t : Nat) :
    contrib K rt e t =
      ((entriesOf e rt.entries).map fun p => if p.1 = t then p.2 • K.expert e (K.x p.1) else 0).sum
    := by
  unfold contrib expertRows
  induction entriesOf e rt.entries with
  | nil => rfl
  | cons p ps ih =>
    by_cases hp : p.1 = t
    · simp [hp] at ih ⊢
      rw [ih]
    · simp [hp] at ih ⊢
      exact ih

theorem sum_map_range_ite {n t : Nat} (ht : t < n) (f : Nat → R) :
    ((List.range n).map fun t' => if t' = t then f t' else 0).sum = f t := by
  have hflip : ∀ t', (if t' = t then f t' else 0) = if t = t' then f t else 0 := by
    intro t'
    by_cases h : t' = t
    · simp [h]
    · simp [h, Ne.symm h]
  rw [List.map_congr_left fun t' _ => hflip t', sum_map_ite_eq List.nodup_range,
    if_pos (List.mem_range.mpr ht)]

/-- Some of the experts together pay a row the pairs that picked them. -/
theorem Grouped.sum_contrib_filter (h : Grouped nExpert rt gs refs) (K : MoeKernels X R)
    (q : Int → Bool) {t : Nat} (ht : t < rt.nTokens) :
    ((gs.filter fun g => q g.expert).map fun g => contrib K rt g.expert t).sum =
      ((List.range rt.used).map fun k =>
        if q (rt.trueIds (t * rt.used + k)) then
          rt.pairWeights (t * rt.used + k) • K.expert (rt.trueIds (t * rt.used + k)) (K.x t)
        else 0).sum := by
  let pays : Int → Nat × W → R := fun e p =>
    if q e then if p.1 = t then p.2 • K.expert e (K.x p.1) else 0 else 0
  have hexpert : ∀ e, (if q e then contrib K rt e t else 0) =
      ((entriesOf e rt.entries).map (pays e)).sum := by
    intro e
    by_cases hq : q e
    · simp only [hq, if_true, contrib_eq, pays]
    · simp [hq, pays]
  have hexperts : ((gs.filter fun g => q g.expert).map fun g => contrib K rt g.expert t).sum =
      ((gs.map RefGroup.expert).map fun e => ((entriesOf e rt.entries).map (pays e)).sum).sum := by
    rw [sum_map_filter, List.map_map]
    exact congrArg List.sum (List.map_congr_left fun g _ => hexpert g.expert)
  rw [hexperts, sum_map_groups h.nodup h.covers pays]
  -- only the entries of row `t` count
  have hrow : ∀ t', (((List.range rt.used).map fun k =>
      (rt.trueIds (t' * rt.used + k), t', rt.pairWeights (t' * rt.used + k))).map
        fun p : Int × (Nat × W) => pays p.1 p.2).sum =
      if t' = t then ((List.range rt.used).map fun k =>
        if q (rt.trueIds (t' * rt.used + k)) then
          rt.pairWeights (t' * rt.used + k) • K.expert (rt.trueIds (t' * rt.used + k)) (K.x t')
        else 0).sum else 0 := by
    intro t'
    by_cases h : t' = t
    · simp [h, pays, Function.comp_def]
    · simp [h, pays, Function.comp_def]
  unfold RoutingTable.entries
  rw [List.map_flatMap, List.flatMap_def, List.sum_flatten, List.map_map]
  exact (congrArg List.sum (List.map_congr_left fun t' _ => hrow t')).trans
    (sum_map_range_ite ht _)

/-- **The experts together** pay a row exactly: no pair is missing and none is there twice. -/
theorem Grouped.sum_contrib (h : Grouped nExpert rt gs refs) (K : MoeKernels X R) {t : Nat}
    (ht : t < rt.nTokens) :
    (gs.map fun g => contrib K rt g.expert t).sum = routedRow K rt t := by
  have hall := h.sum_contrib_filter K (fun _ => true) ht
  simpa [routedRow] using hall

end Rows

end DS4.FlashMoe
