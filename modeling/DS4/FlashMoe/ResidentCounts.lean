import DS4.FlashMoe.ResidentPairs
import Mathlib.Algebra.Module.Defs
import Mathlib.Algebra.Ring.Int.Defs
import Mathlib.Tactic.Abel

namespace DS4.FlashMoe

/-!
# Resident MoE prefill — which calls count every pair

An overlap fixes the split of the experts before the jobs are finished.  A job that then fails
leaves its expert to nobody, and the call still returns true: the rows are right exactly when no
such job is lost.

* `LossFree` — the condition, on the settings, the routing and the outcomes of the jobs.
* `runHybrid_spec` — the rows of the hybrid path, up to the jobs that fail.
* `resident_prefill_counts_pairs` — the whole call.
-/

open DS4.Lib

variable {W X R : Type*}

/-- The jobs that fail to finish. -/
def failing (o : AneOutcomes) (jobs : List RefGroup) : List RefGroup :=
  jobs.filter fun g => !o.finishes g.expert

/-- No overlap is on, or every planned job finishes; or the overlapped grouped tail finds the
    queue empty and computes every expert itself. -/
def LossFree (c : ResidentConfig) (gs : List RefGroup) (o : AneOutcomes) : Prop :=
  c.useAneTailOverlap = false ∨ (∀ g ∈ anePlan c gs o gs, o.finishes g.expert = true) ∨
    (c.useAneNaxOverlap = true ∧ aneJobsLeft c gs o = [])

theorem foldlM_eq_none_of_mem {σ α : Type*} {f : σ → α → Option σ} {l : List α} {a : α}
    (ha : a ∈ l) (hnone : ∀ s, f s a = none) (s : σ) : l.foldlM f s = none := by
  induction l generalizing s with
  | nil => cases ha
  | cons b l ih =>
    rw [List.foldlM_cons]
    obtain rfl | ha := List.mem_cons.mp ha
    · rw [hnone]
      rfl
    · show (f s b).bind _ = none
      cases f s b with
      | none => rfl
      | some s' => exact ih ha s'

section Hybrid

variable [AddCommMonoid R] [SMul W R] {c : ResidentConfig} {K : MoeKernels X R}
  {rt : RoutingTable W} {gs : List RefGroup} {refs : Nat → Nat × W} {o : AneOutcomes}

theorem owed_finishing_add_failing (K : MoeKernels X R) (rt : RoutingTable W) (t : Nat)
    (o : AneOutcomes) (jobs : List RefGroup) :
    owed K rt t (finishing o jobs) + owed K rt t (failing o jobs) = owed K rt t jobs :=
  owed_filter_add_not K rt t jobs _

/-- The groups in the mask and those of the tail make up a row. -/
theorem owed_marked_add_cold (h : Grouped c.nExpert rt gs refs) {mask : Int → Bool}
    {marked : List RefGroup} (hmarked : marked.Nodup)
    (hmask : ∀ g, g ∈ marked ↔ g ∈ gs ∧ mask g.expert = true) {t : Nat} (ht : t < rt.nTokens) :
    owed K rt t marked + owed K rt t (coldGroups mask gs) = routedRow K rt t := by
  have hperm : marked.Perm (gs.filter fun g => mask g.expert) := by
    refine (List.perm_ext_iff_of_nodup hmarked ((h.nodup.of_map _).filter _)).mpr fun g => ?_
    rw [hmask, List.mem_filter]
  rw [owed_perm K rt t hperm, coldGroups_eq h, owed_filter_add_not]
  exact h.sum_contrib K ht

/-- The submit loop gets through when no expert has more pairs than there are tokens. -/
theorem submitLoop_total (h : Grouped c.nExpert rt gs refs)
    (hroom : ∀ g ∈ gs, g.refs ≤ rt.nTokens) (l : List RefGroup) (hl : ∀ g ∈ l, g ∈ gs)
    (s : HybridRun R) : ∃ s', l.foldlM (submit c K rt gs refs o) s = some s' := by
  induction l generalizing s with
  | nil => exact ⟨s, rfl⟩
  | cons g l ih =>
    obtain ⟨s₁, hone⟩ : ∃ s₁, submit c K rt gs refs o s g = some s₁ := by
      have hg := hl g (List.mem_cons_self ..)
      have hvalid := h.valid g hg
      have hbad : ¬ (rt.nTokens < g.refs ∨ g.expert < 0 ∨ (c.nExpert : Int) ≤ g.expert) := by
        have := hroom g hg
        omega
      unfold submit
      rw [if_neg (Nat.ne_of_gt (h.picked g hg).2), if_neg hbad]
      by_cases hpass : passedOver c gs (s.aneGroups + s.queue.length) g = true
      · exact ⟨_, if_pos hpass⟩
      · rw [if_neg hpass]
        by_cases hstart : o.starts g.expert = true
        · exact ⟨_, if_pos hstart⟩
        · exact ⟨_, if_neg hstart⟩
    obtain ⟨s', hrest⟩ := ih (fun g' hg' => hl g' (List.mem_cons_of_mem _ hg')) s₁
    refine ⟨s', ?_⟩
    rw [List.foldlM_cons, hone]
    exact hrest

/-- Both paths give up on an expert with more pairs than tokens. -/
theorem runHybrid_eq_none {g : RefGroup} (hg : g ∈ gs) (hpos : 0 < g.refs)
    (hlarge : rt.nTokens < g.refs) : runHybrid c K rt gs refs o = none := by
  have hnone : ∀ s : HybridRun R, submit c K rt gs refs o s g = none := by
    intro s
    unfold submit
    rw [if_neg (Nat.ne_of_gt hpos), if_pos (.inl hlarge)]
  unfold runHybrid
  rw [foldlM_eq_none_of_mem hg hnone]
  rfl

theorem runExperts_eq_none {g : RefGroup} (hg : g ∈ gs) (hpos : 0 < g.refs)
    (hlarge : rt.nTokens < g.refs) (out : Nat → R) : gs.foldlM (runExpert K rt refs) out = none := by
  refine foldlM_eq_none_of_mem hg (fun out => ?_) out
  unfold runExpert
  rw [if_neg (Nat.ne_of_gt hpos), if_pos hlarge]

/-- **The hybrid path.** Every row is right, or it lacks exactly what the jobs that failed under
    an overlap owe it. -/
theorem runHybrid_spec (h : Grouped c.nExpert rt gs refs)
    (hroom : ∀ g ∈ gs, g.refs ≤ rt.nTokens) :
    ∃ out, runHybrid c K rt gs refs o = some out ∧ (aneStarted c gs o).Sublist gs ∧
      (aneStarted c gs o = anePlan c gs o gs ∨
        ((∃ g ∈ aneStarted c gs o, o.finishes g.expert = false) ∧
          ∃ g ∈ anePlan c gs o gs, o.finishes g.expert = false)) ∧
      (LossFree c gs o → ∀ t < rt.nTokens, out t = routedRow K rt t) ∧
      (¬ LossFree c gs o → ∀ t < rt.nTokens,
        out t + owed K rt t (failing o (aneStarted c gs o)) = routedRow K rt t) := by
  have hnodup : gs.Nodup := h.nodup.of_map _
  obtain ⟨s, hrun⟩ := submitLoop_total (K := K) (o := o) h hroom gs (fun g hg => hg) hybridStart
  obtain ⟨fin, hprog, hjobs⟩ := submitLoop_spec h hrun
  have hin : ∀ p ∈ s.queue, p ∈ gs := fun p hp =>
    hprog.jobs.subset (List.mem_append_right _ hp)
  have hqueued : aneJobsLeft c gs o = s.queue := by
    unfold aneJobsLeft
    rw [← hjobs.queued]
  have hstarted : aneStarted c gs o = fin ++ s.queue := by
    unfold aneStarted
    rw [← hjobs.queued]
  rw [hstarted]
  have hhybrid : ∀ {s' : HybridRun R},
      coldTail c K rt gs refs o (if c.useAneTailOverlap then s else drain K refs o s) = some s' →
      runHybrid c K rt gs refs o = some s'.out := by
    intro s' htail
    unfold runHybrid
    rw [show gs.foldlM (submit c K rt gs refs o)
      { queue := [], aneMask := fun _ => false, aneGroups := 0, aneRefs := 0, out := fun _ => 0 } =
      some s from hrun]
    show (coldTail c K rt gs refs o _).bind _ = _
    rw [htail]
    rfl
  by_cases hover : c.useAneTailOverlap = true
  · -- the split is the one of the queued jobs, whether they finish or not
    obtain ⟨s', htail, hrows⟩ := coldTail_spec (K := K) (o := o) h hroom hin
      (fun hno => absurd hover (by simp [hno]))
    rw [if_pos hover] at hhybrid
    have hmask : ∀ g, g ∈ fin ++ s.queue ↔ g ∈ gs ∧ s.aneMask g.expert = true := by
      intro g
      rw [hprog.mask]
      constructor
      · exact fun hg => ⟨hprog.jobs.subset hg, .inr ⟨hover, g, hg, rfl⟩⟩
      · rintro ⟨hg, ⟨p, hp, hpe, -⟩ | ⟨-, p, hp, hpe⟩⟩
        · have hp := List.mem_append_left s.queue hp
          exact h.expert_inj (hprog.jobs.subset hp) hg hpe ▸ hp
        · exact h.expert_inj (hprog.jobs.subset hp) hg hpe ▸ hp
    have hall : ∀ t < rt.nTokens, owed K rt t (fin ++ s.queue) +
        owed K rt t (coldGroups s.aneMask gs) = routedRow K rt t := fun t ht =>
      owed_marked_add_cold h (hprog.jobs.nodup hnodup) hmask ht
    have hlack : ∀ t < rt.nTokens, ¬ TailOverwrites c gs s →
        s'.out t + owed K rt t (failing o (fin ++ s.queue)) = routedRow K rt t := by
      intro t ht hno
      rw [(hrows t ht).2 hno, hprog.out, ← hall t ht,
        ← owed_finishing_add_failing K rt t o (fin ++ s.queue), finishing_append, owed_append]
      abel
    refine ⟨s'.out, hhybrid htail, hprog.jobs, hjobs.planned,
      fun hfree t ht => ?_, fun hloss t ht => hlack t ht fun htail => hloss ?_⟩
    · by_cases hwrite : TailOverwrites c gs s
      · exact (hrows t ht).1 hwrite
      -- no started job has failed
      have hnone : failing o (fin ++ s.queue) = [] := by
        obtain hno | hplan | ⟨hnax, hleft⟩ := hfree
        · exact absurd hover (by simp [hno])
        · obtain hsame | ⟨-, q, hq, hqfail⟩ := hjobs.planned
          · refine List.filter_eq_nil_iff.mpr fun g hg => ?_
            rw [hplan g (hsame ▸ hg)]
            simp
          · exact absurd (hplan q hq) (by simp [hqfail])
        · have hqueue : s.queue = [] := hqueued ▸ hleft
          obtain hnil | ⟨g, hg, hgfin⟩ := hjobs.idle hqueue
          · rw [hnil, hqueue]
            rfl
          · -- an expert was left to the tail, which then overwrites the output
            refine absurd ⟨?_, ?_, .inl ⟨hnax, hqueue⟩⟩ hwrite
            · refine List.ne_nil_of_mem (a := g) ?_
              rw [coldGroups_eq h, List.mem_filter]
              refine ⟨hg, ?_⟩
              rw [Bool.not_eq_true', Bool.eq_false_iff]
              intro hmarked
              have := (hmask g).mpr ⟨hg, hmarked⟩
              rw [hqueue, List.append_nil] at this
              exact hgfin this
            · unfold ResidentConfig.useAneNaxOverlap at hnax
              unfold ResidentConfig.useAneGpuTailGatherScatter
              simp only [Bool.and_eq_true] at hnax
              simp [hnax.1]
      have := hlack t ht hwrite
      rw [hnone, owed_nil, add_zero] at this
      exact this
    · -- an overwriting tail with an overlap is the ANE+NAX one
      obtain ⟨-, hgather, ⟨hnax, hqueue⟩ | ⟨hno, -⟩⟩ := htail
      · exact .inr (.inr ⟨hnax, hqueued.trans hqueue⟩)
      · unfold ResidentConfig.useAneTailOverlap ResidentConfig.useAneGpuTailOverlap at hover
        simp [hno, hgather] at hover
  · -- the queue is drained first, and the mask has the jobs that did finish
    obtain ⟨hqueue, hdrain⟩ := drain_spec (K := K) (o := o) h hin
    have hdone := hprog.finished hdrain (by rw [hqueue, List.append_nil])
    obtain ⟨s', htail, hrows⟩ := coldTail_spec (K := K) (o := o) h hroom
      (s := drain K refs o s) (by simp [hqueue]) (fun _ => hqueue)
    rw [if_neg hover] at hhybrid
    have hmask : ∀ g, g ∈ finishing o (fin ++ s.queue) ↔
        g ∈ gs ∧ (drain K refs o s).aneMask g.expert = true := by
      intro g
      rw [hdone.mask]
      simp only [finishing, List.mem_filter, hover, Bool.false_eq_true, false_and, or_false]
      constructor
      · exact fun hg => ⟨hprog.jobs.subset hg.1, g, hg.1, rfl, hg.2⟩
      · rintro ⟨hg, p, hp, hpe, hpfin⟩
        have hsame := h.expert_inj (hprog.jobs.subset hp) hg hpe
        exact ⟨hsame ▸ hp, hpfin⟩
    refine ⟨s'.out, hhybrid htail, hprog.jobs, hjobs.planned,
      fun _ t ht => ?_, fun hloss => absurd (.inl (Bool.eq_false_iff.mpr hover)) hloss⟩
    by_cases hwrite : TailOverwrites c gs (drain K refs o s)
    · exact (hrows t ht).1 hwrite
    · rw [(hrows t ht).2 hwrite, hqueue, hdone.out]
      have := owed_marked_add_cold (K := K) h ((hprog.jobs.nodup hnodup).filter _) hmask ht
      simpa [finishing] using this

end Hybrid

/-! ### The whole call -/

/-- The checks of the call: the sizes fit, the tiles are used well enough, and no token picked one
    expert so often that its pairs outnumber the tokens. -/
structure Accepts (c : ResidentConfig) (rt : RoutingTable W) : Prop where
  tokens : rt.nTokens ≠ 0 ∧ rt.nTokens ≤ c.prefillCap
  scratch : c.scratchCap ≠ 0
  pairs : rt.nPairs ≤ 0xFFFFFFFF
  tiles : c.belowMinTileUtil (c.mppTileRefs fun e => rt.ids.count e) rt.nPairs = false
  router : c.prefillCap + rt.nTokens ≤ c.prefillCap * rt.used
  once : ∀ e ∈ rt.ids, rt.ids.count e ≤ rt.nTokens

/-- The groups of the call. -/
def residentGroups (ids : List Int) : List RefGroup :=
  refGroups (countKeys ids).counts ((countKeys ids).unique.insertionSort (· ≤ ·))

section Call

variable {c : ResidentConfig} {rt : RoutingTable W} {o : AneOutcomes}

theorem grouped_resident (hvalid : ∀ e ∈ rt.ids, 0 ≤ e ∧ e < c.nExpert) (fresh : Nat → Nat × W) :
    Grouped c.nExpert rt (residentGroups rt.ids) (refLists rt.entries (countKeys rt.ids).counts
      ((countKeys rt.ids).unique.insertionSort (· ≤ ·)) fresh) :=
  grouped_refLists hvalid (List.perm_insertionSort _ _) (List.Perm.refl _) fresh

/-- An accepted call runs one of its two paths. -/
theorem run_eq_of_accepts [AddCommMonoid R] [SMul W R] (K : MoeKernels X R)
    (hvalid : ∀ e ∈ rt.ids, 0 ≤ e ∧ e < c.nExpert) (h : Accepts c rt) (fresh : Nat → Nat × W) :
    residentMoeRunMppPrefillDedup c K rt fresh o =
      if c.useAneHybrid then
        runHybrid c K rt (residentGroups rt.ids) (refLists rt.entries (countKeys rt.ids).counts
          ((countKeys rt.ids).unique.insertionSort (· ≤ ·)) fresh) o
      else (residentGroups rt.ids).foldlM (runExpert K rt (refLists rt.entries (countKeys rt.ids).counts
          ((countKeys rt.ids).unique.insertionSort (· ≤ ·)) fresh)) fun _ => 0 := by
  have hcounts : (countKeys rt.ids).counts = fun e => rt.ids.count e :=
    funext (countKeys_counts rt.ids)
  have htiles := h.tiles
  rw [← hcounts] at htiles
  have := h.router
  unfold residentMoeRunMppPrefillDedup
  rw [if_neg (by have := h.tokens; omega), if_neg h.scratch, if_neg (Nat.not_lt.mpr h.pairs),
    countRefs_eq hvalid, Option.bind_some, if_neg (by simp [htiles]), if_neg (by omega)]
  rfl

/-- A call that returns true was accepted. -/
theorem accepts_of_run [AddCommMonoid R] [SMul W R] {K : MoeKernels X R}
    (hvalid : ∀ e ∈ rt.ids, 0 ≤ e ∧ e < c.nExpert) {fresh : Nat → Nat × W} {out : Nat → R}
    (hrun : residentMoeRunMppPrefillDedup c K rt fresh o = some out) : Accepts c rt := by
  have hcounts : (countKeys rt.ids).counts = fun e => rt.ids.count e :=
    funext (countKeys_counts rt.ids)
  have hgrouped := grouped_resident hvalid fresh
  unfold residentMoeRunMppPrefillDedup at hrun
  by_cases htokens : rt.nTokens = 0 ∨ c.prefillCap < rt.nTokens
  · rw [if_pos htokens] at hrun
    cases hrun
  rw [if_neg htokens] at hrun
  by_cases hscratch : c.scratchCap = 0
  · rw [if_pos hscratch] at hrun
    cases hrun
  rw [if_neg hscratch] at hrun
  by_cases hpairs : 0xFFFFFFFF < rt.nPairs
  · rw [if_pos hpairs] at hrun
    cases hrun
  rw [if_neg hpairs, countRefs_eq hvalid, Option.bind_some] at hrun
  by_cases htiles : c.belowMinTileUtil (c.mppTileRefs (countKeys rt.ids).counts) rt.nPairs = true
  · rw [if_pos htiles] at hrun
    cases hrun
  rw [if_neg htiles] at hrun
  dsimp only at hrun
  by_cases hrouter : c.prefillCap * rt.used < c.prefillCap + rt.nTokens
  · rw [if_pos hrouter] at hrun
    cases hrun
  rw [if_neg hrouter] at hrun
  refine ⟨by omega, hscratch, by omega, ?_, by omega, fun e he => ?_⟩
  · rw [← hcounts]
    exact Bool.eq_false_iff.mpr htiles
  -- both paths give up on an expert with more pairs than tokens
  by_contra hmany
  obtain ⟨p, hp, rfl⟩ : ∃ p ∈ rt.entries, p.1 = e := by
    rw [← rt.map_fst_entries] at he
    exact List.mem_map.mp he
  obtain ⟨g, hg, hge⟩ := List.mem_map.mp (hgrouped.covers p hp)
  have hpicked := hgrouped.picked g hg
  rw [hge] at hpicked
  have hlarge : rt.nTokens < g.refs := by omega
  by_cases hhybrid : c.useAneHybrid = true
  · rw [if_pos hhybrid] at hrun
    exact nomatch (hrun.symm).trans (runHybrid_eq_none hg hpicked.2 hlarge)
  · rw [if_neg hhybrid] at hrun
    exact nomatch (hrun.symm).trans (runExperts_eq_none hg hpicked.2 hlarge _)

theorem refs_le_of_accepts (h : Accepts c rt) {refs : Nat → Nat × W} {gs : List RefGroup}
    (hgrouped : Grouped c.nExpert rt gs refs) : ∀ g ∈ gs, g.refs ≤ rt.nTokens := by
  intro g hg
  obtain ⟨hcount, hpos⟩ := hgrouped.picked g hg
  rw [hcount]
  exact h.once _ (List.count_pos_iff.mp (hcount ▸ hpos))

/-- Where no job is lost, the rows of a call that returns true are right. -/
theorem rows_of_lossFree [AddCommMonoid R] [SMul W R] {K : MoeKernels X R}
    (hvalid : ∀ e ∈ rt.ids, 0 ≤ e ∧ e < c.nExpert)
    (hfree : Accepts c rt → LossFree c (residentGroups rt.ids) o) {fresh : Nat → Nat × W}
    {out : Nat → R} (hrun : residentMoeRunMppPrefillDedup c K rt fresh o = some out) :
    ∀ t < rt.nTokens, out t = routedRow K rt t := by
  have haccepts := accepts_of_run hvalid hrun
  have hgrouped := grouped_resident hvalid fresh
  have hroom := refs_le_of_accepts haccepts hgrouped
  rw [run_eq_of_accepts K hvalid haccepts] at hrun
  by_cases hhybrid : c.useAneHybrid = true
  · rw [if_pos hhybrid] at hrun
    obtain ⟨out', hout, -, -, hrows, -⟩ := runHybrid_spec (K := K) (o := o) hgrouped hroom
    rw [hrun, Option.some.injEq] at hout
    subst hout
    exact hrows (hfree haccepts)
  · rw [if_neg hhybrid] at hrun
    obtain ⟨out', hout, hrows⟩ := runExperts_eq (K := K) hgrouped hroom _ (fun g hg => hg)
      fun _ => 0
    rw [hrun, Option.some.injEq] at hout
    subst hout
    intro t ht
    rw [hrows, zero_add]
    exact hgrouped.sum_contrib K ht

theorem Accepts.weights (h : Accepts c rt) (w : Nat → W) :
    Accepts c { rt with pairWeights := w } :=
  ⟨h.tokens, h.scratch, h.pairs, h.tiles, h.router, h.once⟩

/-- Experts that give nothing are owed nothing. -/
theorem owed_single [Semiring W] [AddCommGroup R] [Module W R] {K : MoeKernels X R} {e : Int}
    (hK : ∀ e' ≠ e, ∀ x, K.expert e' x = 0) {l : List RefGroup}
    (hnodup : (l.map RefGroup.expert).Nodup) (he : e ∈ l.map RefGroup.expert) (t : Nat) :
    owed K rt t l = contrib K rt e t := by
  have hone : ∀ e', contrib K rt e' t = if e = e' then contrib K rt e t else 0 := by
    intro e'
    by_cases h : e = e'
    · simp [h]
    · rw [if_neg h, contrib_eq]
      refine List.sum_eq_zero fun r hr => ?_
      obtain ⟨p, -, rfl⟩ := List.mem_map.mp hr
      simp [hK e' (Ne.symm h)]
  unfold owed
  rw [show l.map (fun g => contrib K rt g.expert t) =
    (l.map RefGroup.expert).map fun e' => if e = e' then contrib K rt e t else 0 by
      rw [List.map_map]
      exact List.map_congr_left fun g _ => hone g.expert]
  rw [sum_map_ite_eq hnodup, if_pos he]

end Call

/-- **Every routed pair once.** For given ids, settings and job outcomes the rows are right, for
    all weights, inputs and experts, exactly when the call is rejected or no job is lost. -/
theorem resident_prefill_counts_pairs [Semiring W] [AddCommGroup R] [Module W R] [Nontrivial R]
    [Nonempty X] (c : ResidentConfig) (rt : RoutingTable W) (o : AneOutcomes)
    (hvalid : ∀ e ∈ rt.ids, 0 ≤ e ∧ e < c.nExpert) :
    (∀ (w : Nat → W) (K : MoeKernels X R) (fresh : Nat → Nat × W) (out : Nat → R),
      residentMoeRunMppPrefillDedup c K { rt with pairWeights := w } fresh o = some out →
      ∀ t < rt.nTokens, out t = routedRow K { rt with pairWeights := w } t) ↔
    (Accepts c rt → LossFree c (residentGroups rt.ids) o) := by
  constructor
  · intro hrows haccepts
    by_contra hloss
    have hhybrid : c.useAneHybrid = true := by
      by_contra hno
      refine hloss (.inl ?_)
      simp [ResidentConfig.useAneTailOverlap, ResidentConfig.useAneNaxOverlap,
        ResidentConfig.useAneGpuTailOverlap, ResidentConfig.useAneGpuTailGatherScatter,
        ResidentConfig.useAneNax, hno]
    obtain ⟨r, hr⟩ := exists_ne (0 : R)
    let x : X := Classical.arbitrary X
    have hgrouped := grouped_resident hvalid fun _ => (0, 0)
    obtain ⟨-, -, hsub, hplan, -⟩ := runHybrid_spec (K := (⟨fun _ => x, fun _ _ => r⟩ :
      MoeKernels X R)) (o := o) hgrouped (refs_le_of_accepts haccepts hgrouped)
    -- a job is lost; its expert was picked by some pair
    obtain ⟨g, hstarted, hfail⟩ : ∃ g ∈ aneStarted c (residentGroups rt.ids) o,
        o.finishes g.expert = false := by
      obtain hsame | ⟨hjob, -⟩ := hplan
      · rw [hsame]
        by_contra hall
        refine hloss (.inr (.inl fun g hg => ?_))
        by_contra hfail
        exact hall ⟨g, hg, Bool.eq_false_iff.mpr hfail⟩
      · exact hjob
    obtain ⟨t, ht, k, hk, hid⟩ : ∃ t < rt.nTokens, ∃ k < rt.used,
        rt.trueIds (t * rt.used + k) = g.expert := by
      obtain ⟨hcount, hpos⟩ := hgrouped.picked g (hsub.subset hstarted)
      have hmem : g.expert ∈ rt.ids := List.count_pos_iff.mp (hcount ▸ hpos)
      rw [← rt.map_fst_entries] at hmem
      obtain ⟨p, hp, hpe⟩ := List.mem_map.mp hmem
      obtain ⟨t, ht, k, hk, rfl⟩ := (rt.mem_entries).mp hp
      exact ⟨t, ht, k, hk, hpe⟩
    -- weigh only that pair, and let only that expert give anything
    let K : MoeKernels X R := ⟨fun _ => x, fun e _ => if e = g.expert then r else 0⟩
    let w : Nat → W := fun i => if i = t * rt.used + k then 1 else 0
    let rt' : RoutingTable W := { rt with pairWeights := w }
    have hvalid : ∀ e ∈ rt'.ids, 0 ≤ e ∧ e < c.nExpert := hvalid
    have hgrouped := grouped_resident hvalid fun _ => (0, 0)
    have haccepts : Accepts c rt' := haccepts.weights w
    obtain ⟨out, hout, -, -, -, hlack⟩ := runHybrid_spec (K := K) (o := o) hgrouped
      (refs_le_of_accepts haccepts hgrouped)
    have hrun : residentMoeRunMppPrefillDedup c K rt' (fun _ => (0, 0)) o = some out := by
      rw [run_eq_of_accepts K hvalid haccepts, if_pos hhybrid]
      exact hout
    have hright : out t = routedRow K rt' t := hrows w K _ out hrun t ht
    have hlack := hlack hloss t ht
    have hother : ∀ e ≠ g.expert, ∀ x, K.expert e x = 0 := fun e he x => if_neg he
    have hfailing : (failing o (aneStarted c (residentGroups rt'.ids) o)).Sublist
        (residentGroups rt'.ids) := List.filter_sublist.trans hsub
    have hrow : routedRow K rt' t = r := by
      refine Eq.trans (congrArg List.sum (List.map_congr_left fun k' _ => ?_))
        (sum_map_range_ite hk fun _ => r)
      show (if t * rt.used + k' = t * rt.used + k then (1 : W) else 0) •
        (if rt.trueIds (t * rt.used + k') = g.expert then r else 0) = _
      by_cases hkk : k' = k
      · subst hkk
        simp [hid]
      · simp [hkk]
    -- what the job owes is the whole row
    have howed : owed K rt' t (failing o (aneStarted c (residentGroups rt'.ids) o)) = r := by
      have hall : owed K rt' t (residentGroups rt'.ids) = r :=
        (hgrouped.sum_contrib K ht).trans hrow
      rw [owed_single hother hgrouped.nodup (List.mem_map_of_mem (hsub.subset hstarted))] at hall
      rw [owed_single hother ((hfailing.map _).nodup hgrouped.nodup)
        (List.mem_map_of_mem (List.mem_filter.mpr ⟨hstarted, by simp [hfail]⟩)), hall]
    rw [howed, hright] at hlack
    exact hr (add_eq_left.mp hlack)
  · intro hfree w K fresh out hrun
    have hvalid : ∀ e ∈ ({ rt with pairWeights := w } : RoutingTable W).ids,
        0 ≤ e ∧ e < c.nExpert := hvalid
    exact rows_of_lossFree hvalid (fun haccepts => hfree (haccepts.weights rt.pairWeights)) hrun

/-! ### A sample -/

/-- ANE+NAX with its overlap on, and one group at most on the ANE. -/
def overlapConfig : ResidentConfig where
  nExpert := 2
  prefillCap := 1
  batchRoutedScratchCap := 0
  mppPartialTilesAllowed := true
  belowMinTileUtil := fun _ _ => false
  useAneHybrid := true
  aneNaxHybrid := true
  aneGpuTailGatherScatter := false
  aneGpuTailOverlap := false
  aneNaxOverlap := true
  aneNaxFrac := none
  aneMinRefs := 1
  aneMaxRefs := 1024
  aneMaxGroups := 1
  aneQueueCap := 8
  aneQueueCap_pos := by decide
  aneQueueCap_le := by decide

/-- One token that picked the experts 0 and 1. -/
def sampleTable : RoutingTable Int :=
  { nTokens := 1, used := 2, trueIds := fun i => i, pairWeights := fun _ => 1 }

def sampleKernels : MoeKernels Int Int := { x := fun _ => 1, expert := fun e x => 10 * (e + 1) + x }

/-- With every job finished the call returns true on the sample, and the row is right. -/
theorem resident_prefill_sampleTable :
    (residentMoeRunMppPrefillDedup overlapConfig sampleKernels sampleTable (fun _ => (0, 0))
        { starts := fun _ => true, finishes := fun _ => true }).isSome = true ∧
      ∀ (w : Nat → Int) (K : MoeKernels Int Int) (fresh : Nat → Nat × Int) (out : Nat → Int),
        residentMoeRunMppPrefillDedup overlapConfig K { sampleTable with pairWeights := w } fresh
          { starts := fun _ => true, finishes := fun _ => true } = some out →
        ∀ t < 1, out t = routedRow K { sampleTable with pairWeights := w } t :=
  ⟨by decide +kernel, (resident_prefill_counts_pairs overlapConfig sampleTable
    { starts := fun _ => true, finishes := fun _ => true } (by decide)).mpr
    fun _ => .inr (.inl (by decide))⟩

/-- The job of expert 0 starts and fails to finish: the call returns true, and the row has expert
    1 alone. -/
theorem resident_prefill_loses_job :
    ∃ out, residentMoeRunMppPrefillDedup overlapConfig sampleKernels sampleTable (fun _ => (0, 0))
        { starts := fun _ => true, finishes := fun _ => false } = some out ∧
      out 0 = 21 ∧ routedRow sampleKernels sampleTable 0 = 32 := by
  have hout : (residentMoeRunMppPrefillDedup overlapConfig sampleKernels sampleTable
      (fun _ => (0, 0)) { starts := fun _ => true, finishes := fun _ => false }).map
        (fun out => out 0) = some 21 := by decide +kernel
  obtain ⟨out, hrun, hrow⟩ := Option.map_eq_some_iff.mp hout
  exact ⟨out, hrun, hrow, by decide⟩

end DS4.FlashMoe
