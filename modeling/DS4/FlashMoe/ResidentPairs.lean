import DS4.FlashMoe.ResidentPrefill

namespace DS4.FlashMoe

/-!
# Resident MoE prefill — every routed pair counted once

The ANE and the cold tail share the experts of a batch.  Whatever the queue, the band and the
balancer do, an expert whose job is finished is paid by the job, and an expert outside the mask is
paid by the tail.  Left over is an expert that is in the mask although its job failed: that takes
an overlap, which marks an expert when its job is queued.

* `Finished` — what finishing some jobs does to the state, for one job and for the queue.
* `Progress` — what holds in the submit loop, after every expert.
* `coldTail_spec` — what the tail adds.
* `resident_prefill_counts_pairs` — when the rows are right.
-/

open DS4.Lib

variable {W X R : Type*} [AddCommMonoid R] [SMul W R]

/-- What some groups owe row `t`. -/
def owed (K : MoeKernels X R) (rt : RoutingTable W) (t : Nat) (l : List RefGroup) : R :=
  (l.map fun g => contrib K rt g.expert t).sum

section Owed

variable (K : MoeKernels X R) (rt : RoutingTable W) (t : Nat)

@[simp] theorem owed_nil : owed K rt t [] = 0 := rfl

@[simp] theorem owed_cons (g : RefGroup) (l : List RefGroup) :
    owed K rt t (g :: l) = contrib K rt g.expert t + owed K rt t l := by
  simp [owed]

@[simp] theorem owed_append (l l' : List RefGroup) :
    owed K rt t (l ++ l') = owed K rt t l + owed K rt t l' := by
  simp [owed]

theorem owed_perm {l l' : List RefGroup} (h : l.Perm l') : owed K rt t l = owed K rt t l' :=
  (h.map _).sum_eq

theorem owed_filter_add_not (l : List RefGroup) (p : RefGroup → Bool) :
    owed K rt t (l.filter p) + owed K rt t (l.filter fun g => !p g) = owed K rt t l :=
  sum_map_filter_add_not l p _

end Owed

variable {c : ResidentConfig} {K : MoeKernels X R} {rt : RoutingTable W} {gs : List RefGroup}
  {refs : Nat → Nat × W} {o : AneOutcomes}

/-! ### Finishing jobs -/

/-- The jobs that do finish. -/
def finishing (o : AneOutcomes) (jobs : List RefGroup) : List RefGroup :=
  jobs.filter fun g => o.finishes g.expert

@[simp] theorem finishing_append (o : AneOutcomes) (l l' : List RefGroup) :
    finishing o (l ++ l') = finishing o l ++ finishing o l' := by
  simp [finishing]

/-- `s'` is `s` with some jobs finished: those that do finish have added their rows, are in the
    mask and are counted. -/
structure Finished (K : MoeKernels X R) (rt : RoutingTable W) (o : AneOutcomes)
    (jobs : List RefGroup) (s s' : HybridRun R) : Prop where
  out : ∀ t, s'.out t = s.out t + owed K rt t (finishing o jobs)
  mask : ∀ e, s'.aneMask e = true ↔
    s.aneMask e = true ∨ ∃ g ∈ jobs, g.expert = e ∧ o.finishes e = true
  groups : s'.aneGroups = s.aneGroups + (finishing o jobs).length
  refs : s'.aneRefs = s.aneRefs + ((finishing o jobs).map RefGroup.refs).sum

theorem Finished.trans {jobs jobs' : List RefGroup} {s s' s'' : HybridRun R}
    (h : Finished K rt o jobs s s') (h' : Finished K rt o jobs' s' s'') :
    Finished K rt o (jobs ++ jobs') s s'' where
  out := fun t => by rw [h'.out, h.out, finishing_append, owed_append, add_assoc]
  mask := fun e => by
    rw [h'.mask, h.mask]
    simp only [List.mem_append, or_and_right, exists_or, or_assoc]
  groups := by rw [h'.groups, h.groups, finishing_append, List.length_append, Nat.add_assoc]
  refs := by
    rw [h'.refs, h.refs, finishing_append, List.map_append, List.sum_append, Nat.add_assoc]

theorem finishOne_cons {s : HybridRun R} {p : RefGroup} {queue : List RefGroup}
    (hqueue : s.queue = p :: queue) : finishOne K refs o s =
      if o.finishes p.expert then
        { queue
          aneMask := Function.update s.aneMask p.expert true
          aneGroups := s.aneGroups + 1
          aneRefs := s.aneRefs + p.refs
          out := scatterAdd s.out (expertRows K p.expert (segment refs p.start p.refs)) }
      else { s with queue } := by
  unfold finishOne
  rw [hqueue]

/-- Finishing the oldest job. -/
theorem finishOne_spec (h : Grouped c.nExpert rt gs refs) {s : HybridRun R} {p : RefGroup}
    {queue : List RefGroup} (hqueue : s.queue = p :: queue) (hp : p ∈ gs) :
    (finishOne K refs o s).queue = queue ∧ Finished K rt o [p] s (finishOne K refs o s) := by
  rw [finishOne_cons hqueue]
  by_cases hfin : o.finishes p.expert = true
  · rw [if_pos hfin]
    refine ⟨rfl, fun t => ?_, fun e => ?_, ?_, ?_⟩
    · refine (h.scatterAdd_expertRows hp K s.out t).trans ?_
      simp [finishing, hfin]
    · show Function.update s.aneMask p.expert true e = true ↔ _
      by_cases he : e = p.expert
      · subst he
        simp [hfin]
      · simp [Function.update_of_ne he, Ne.symm he]
    · simp [finishing, hfin]
    · simp [finishing, hfin]
  · rw [if_neg hfin]
    refine ⟨rfl, fun t => ?_, fun e => ?_, ?_, ?_⟩
    · simp [finishing, hfin]
    · constructor
      · exact .inl
      · rintro (hmask | ⟨g, hg, hge, hfine⟩)
        · exact hmask
        · -- the job that is finished is `p`, and it fails
          rw [List.mem_singleton.mp hg] at hge
          exact absurd (hge ▸ hfine) hfin
    · simp [finishing, hfin]
    · simp [finishing, hfin]

theorem Finished.refl (s : HybridRun R) : Finished K rt o [] s s where
  out := fun t => by simp [finishing]
  mask := fun e => by simp
  groups := by simp [finishing]
  refs := by simp [finishing]

/-- Draining the queue finishes every job in it. -/
theorem drain_spec (h : Grouped c.nExpert rt gs refs) {s : HybridRun R}
    (hjobs : ∀ p ∈ s.queue, p ∈ gs) :
    (drain K refs o s).queue = [] ∧ Finished K rt o s.queue s (drain K refs o s) := by
  have hrun : ∀ (queue : List RefGroup) (s : HybridRun R), s.queue = queue →
      (∀ p ∈ queue, p ∈ gs) →
      (queue.foldl (fun s _ => finishOne K refs o s) s).queue = [] ∧
        Finished K rt o queue s (queue.foldl (fun s _ => finishOne K refs o s) s) := by
    intro queue
    induction queue with
    | nil => exact fun s hs _ => ⟨hs, Finished.refl s⟩
    | cons p queue ih =>
      intro s hs hjobs
      obtain ⟨hqueue, hone⟩ :=
        finishOne_spec (K := K) (o := o) h hs (hjobs p (List.mem_cons_self ..))
      obtain ⟨hend, hrest⟩ := ih _ hqueue fun q hq => hjobs q (List.mem_cons_of_mem _ hq)
      exact ⟨hend, hone.trans hrest⟩
  exact hrun s.queue s rfl hjobs

/-! ### The submit loop -/

/-- What one expert of the submit loop does: nothing, or a place in the queue is made free and its
    job is started. -/
theorem submit_cases {s s' : HybridRun R} {g : RefGroup}
    (hrun : submit c K rt gs refs o s g = some s') :
    ((g.refs = 0 ∨ passedOver c gs (s.aneGroups + s.queue.length) g = true) ∧ s' = s) ∨
    (g.refs ≠ 0 ∧ passedOver c gs (s.aneGroups + s.queue.length) g = false ∧
      ∃ s₁, s₁ = (if s.queue.length = c.aneQueueCap then finishOne K refs o s else s) ∧
        ((o.starts g.expert = false ∧ s' = s₁) ∨
          (o.starts g.expert = true ∧ s' = { s₁ with
            queue := s₁.queue ++ [g]
            aneMask := if c.useAneTailOverlap then Function.update s₁.aneMask g.expert true
              else s₁.aneMask }))) := by
  unfold submit at hrun
  by_cases hrefs : g.refs = 0
  · rw [if_pos hrefs, Option.some.injEq] at hrun
    exact .inl ⟨.inl hrefs, hrun.symm⟩
  rw [if_neg hrefs] at hrun
  by_cases hbad : rt.nTokens < g.refs ∨ g.expert < 0 ∨ (c.nExpert : Int) ≤ g.expert
  · rw [if_pos hbad] at hrun
    cases hrun
  rw [if_neg hbad] at hrun
  by_cases hpass : passedOver c gs (s.aneGroups + s.queue.length) g = true
  · rw [if_pos hpass, Option.some.injEq] at hrun
    exact .inl ⟨.inr hpass, hrun.symm⟩
  rw [if_neg hpass] at hrun
  refine .inr ⟨hrefs, Bool.eq_false_iff.mpr hpass, _, rfl, ?_⟩
  by_cases hstart : o.starts g.expert = true
  · rw [if_pos hstart, Option.some.injEq] at hrun
    exact .inr ⟨hstart, hrun.symm⟩
  · rw [if_neg hstart, Option.some.injEq] at hrun
    exact .inl ⟨Bool.eq_false_iff.mpr hstart, hrun.symm⟩

/-- What holds in the submit loop once the groups `seen` have been looked at and the jobs `fin`
    have been finished: the rows of the jobs that did finish are in, and the mask has their experts,
    with an overlap those of all jobs. -/
structure Progress (c : ResidentConfig) (K : MoeKernels X R) (rt : RoutingTable W)
    (o : AneOutcomes) (seen fin : List RefGroup) (s : HybridRun R) : Prop where
  jobs : (fin ++ s.queue).Sublist seen
  out : ∀ t, s.out t = owed K rt t (finishing o fin)
  mask : ∀ e, s.aneMask e = true ↔ (∃ g ∈ fin, g.expert = e ∧ o.finishes e = true) ∨
    (c.useAneTailOverlap = true ∧ ∃ g ∈ fin ++ s.queue, g.expert = e)
  groups : s.aneGroups = (finishing o fin).length
  refs : s.aneRefs = ((finishing o fin).map RefGroup.refs).sum

/-- Finishing queued jobs keeps the progress. -/
theorem Progress.finished {seen fin jobs : List RefGroup} {s s' : HybridRun R}
    (h : Progress c K rt o seen fin s) (hfin : Finished K rt o jobs s s')
    (hqueue : s.queue = jobs ++ s'.queue) : Progress c K rt o seen (fin ++ jobs) s' where
  jobs := by
    rw [List.append_assoc, ← hqueue]
    exact h.jobs
  out := fun t => by rw [hfin.out, h.out, finishing_append, owed_append]
  mask := fun e => by
    rw [hfin.mask, h.mask, List.append_assoc, ← hqueue]
    simp only [List.mem_append, or_and_right, exists_or]
    exact or_right_comm
  groups := by rw [hfin.groups, h.groups, finishing_append, List.length_append]
  refs := by rw [hfin.refs, h.refs, finishing_append, List.map_append, List.sum_append]

/-- One more expert: its job is behind the others, or there is none. -/
theorem Progress.submit {seen fin : List RefGroup} {s s' : HybridRun R} {g : RefGroup}
    (hgrouped : Grouped c.nExpert rt gs refs) (hg : g ∈ gs) (hseen : ∀ p ∈ seen, p ∈ gs)
    (h : Progress c K rt o seen fin s) (hrun : submit c K rt gs refs o s g = some s') :
    ∃ fin', Progress c K rt o (seen ++ [g]) fin' s' ∧
      fin' ++ s'.queue = fin ++ s.queue ++
        if passedOver c gs (s.aneGroups + s.queue.length) g = false ∧ o.starts g.expert = true
        then [g] else [] := by
  have hwider : ∀ {fin : List RefGroup} {s : HybridRun R}, Progress c K rt o seen fin s →
      Progress c K rt o (seen ++ [g]) fin s := fun h =>
    { h with jobs := h.jobs.trans (List.sublist_append_left _ _) }
  obtain ⟨hpass, rfl⟩ | ⟨hrefs, hpass, s₁, hs₁, hstart⟩ := submit_cases hrun
  · refine ⟨fin, hwider h, ?_⟩
    obtain hrefs | hpass := hpass
    · -- an expert in the list was picked at least once
      have := (hgrouped.picked g hg).2
      omega
    · rw [if_neg (by simp [hpass]), List.append_nil]
  · -- the place that is made free, when the queue is full, is the oldest job's
    obtain ⟨fin₁, h₁, hjobs⟩ : ∃ fin₁, Progress c K rt o seen fin₁ s₁ ∧
        fin₁ ++ s₁.queue = fin ++ s.queue := by
      by_cases hfull : s.queue.length = c.aneQueueCap
      · rw [if_pos hfull] at hs₁
        obtain ⟨p, queue, hqueue⟩ : ∃ p queue, s.queue = p :: queue :=
          List.exists_cons_of_length_pos (hfull ▸ c.aneQueueCap_pos)
        have hp : p ∈ gs := hseen p (h.jobs.subset (by simp [hqueue]))
        obtain ⟨hrest, hone⟩ := finishOne_spec (K := K) (o := o) hgrouped hqueue hp
        rw [← hs₁] at hrest hone
        refine ⟨fin ++ [p], h.finished hone (by simp [hqueue, hrest]), ?_⟩
        simp [hqueue, hrest]
      · rw [if_neg hfull] at hs₁
        subst hs₁
        exact ⟨fin, h, rfl⟩
    obtain ⟨hstart, rfl⟩ | ⟨hstart, rfl⟩ := hstart
    · refine ⟨fin₁, hwider h₁, ?_⟩
      rw [if_neg (by simp [hstart]), List.append_nil, hjobs]
    · refine ⟨fin₁, ⟨?_, h₁.out, fun e => ?_, h₁.groups, h₁.refs⟩, ?_⟩
      · rw [← List.append_assoc]
        exact h₁.jobs.append (List.Sublist.refl _)
      · show (if c.useAneTailOverlap = true then _ else s₁.aneMask) e = true ↔ _
        by_cases hover : c.useAneTailOverlap = true
        · rw [if_pos hover]
          have hmask := h₁.mask e
          by_cases he : e = g.expert
          · subst he
            rw [Function.update_self]
            exact iff_of_true rfl (.inr ⟨hover, g, by simp, rfl⟩)
          · rw [Function.update_of_ne he, hmask]
            simp only [hover, true_and, List.mem_append, List.mem_singleton]
            constructor
            · rintro (hfin | ⟨p, hp, hpe⟩)
              · exact .inl hfin
              · exact .inr ⟨p, hp.imp_right .inl, hpe⟩
            · rintro (hfin | ⟨p, hp | hp | rfl, hpe⟩)
              · exact .inl hfin
              · exact .inr ⟨p, .inl hp, hpe⟩
              · exact .inr ⟨p, .inr hp, hpe⟩
              · exact absurd hpe.symm he
        · rw [if_neg hover, h₁.mask e]
          simp [hover]
      · show fin₁ ++ (s₁.queue ++ [g]) = _
        rw [if_pos ⟨hpass, hstart⟩, ← List.append_assoc, hjobs]

/-! ### The jobs, from the settings and the outcomes alone -/

/-- The jobs of the groups `seen` when none fails to finish: the groups that go to the ANE and
    start there, the first `ane_max_groups` of them where the number is limited. -/
def anePlan (c : ResidentConfig) (gs : List RefGroup) (o : AneOutcomes) (seen : List RefGroup) :
    List RefGroup :=
  match c.useAneNaxBalance with
  | some reached =>
    seen.filter fun g => (c.aneAssign reached gs).contains g.expert && o.starts g.expert
  | none =>
    let hot := seen.filter fun g => c.inBand g && o.starts g.expert
    if c.aneMaxGroups = 0 then hot else hot.take c.aneMaxGroups

/-- What one expert does to the number of finished jobs and to the queue. -/
def aneQueueStep (c : ResidentConfig) (gs : List RefGroup) (o : AneOutcomes)
    (q : Nat × List RefGroup) (g : RefGroup) : Nat × List RefGroup :=
  if passedOver c gs (q.1 + q.2.length) g then q
  else
    let q := if q.2.length = c.aneQueueCap then
        (q.1 + (finishing o (q.2.take 1)).length, q.2.drop 1)
      else q
    if o.starts g.expert then (q.1, q.2 ++ [g]) else q

/-- The same, beside the jobs that were started so far. -/
def aneRunStep (c : ResidentConfig) (gs : List RefGroup) (o : AneOutcomes)
    (q : (Nat × List RefGroup) × List RefGroup) (g : RefGroup) :
    (Nat × List RefGroup) × List RefGroup :=
  (aneQueueStep c gs o q.1 g, q.2 ++
    if passedOver c gs (q.1.1 + q.1.2.length) g = false ∧ o.starts g.expert = true
    then [g] else [])

/-- The jobs that are still queued when the submit loop ends. -/
def aneJobsLeft (c : ResidentConfig) (gs : List RefGroup) (o : AneOutcomes) : List RefGroup :=
  (gs.foldl (aneRunStep c gs o) ((0, []), [])).1.2

/-- The jobs that are started. -/
def aneStarted (c : ResidentConfig) (gs : List RefGroup) (o : AneOutcomes) : List RefGroup :=
  (gs.foldl (aneRunStep c gs o) ((0, []), [])).2

theorem anePlan_append (c : ResidentConfig) (gs : List RefGroup) (o : AneOutcomes)
    (seen : List RefGroup) (g : RefGroup) :
    anePlan c gs o (seen ++ [g]) = anePlan c gs o seen ++
      if passedOver c gs (anePlan c gs o seen).length g = false ∧ o.starts g.expert = true
      then [g] else [] := by
  have hone : ∀ p : RefGroup → Bool, [g].filter p = if p g = true then [g] else [] := by
    intro p
    by_cases hp : p g <;> simp [hp]
  unfold anePlan passedOver
  cases c.useAneNaxBalance with
  | some reached =>
    dsimp only
    rw [List.filter_append, hone]
    exact congrArg _ (if_congr (by simp) rfl rfl)
  | none =>
    dsimp only
    rw [List.filter_append, hone]
    by_cases hmax : c.aneMaxGroups = 0
    · rw [if_pos hmax, if_pos hmax]
      exact congrArg _ (if_congr (by simp [hmax]) rfl rfl)
    · rw [if_neg hmax, if_neg hmax, List.take_append, List.length_take]
      generalize (seen.filter fun g => c.inBand g && o.starts g.expert) = hot
      refine congrArg _ ?_
      -- there is room for `g` exactly when the plan is shorter than the limit
      by_cases hroom : hot.length < c.aneMaxGroups
      · have hlen : ¬ c.aneMaxGroups ≤ min c.aneMaxGroups hot.length := by omega
        rw [List.take_of_length_le]
        · exact if_congr (by simp [hlen]) rfl rfl
        · by_cases hin : (c.inBand g && o.starts g.expert) = true
          · rw [if_pos hin, List.length_singleton]
            omega
          · rw [if_neg hin]
            exact Nat.zero_le _
      · have hzero : c.aneMaxGroups - hot.length = 0 := by omega
        have hlen : c.aneMaxGroups ≤ min c.aneMaxGroups hot.length := by omega
        rw [hzero, List.take_zero, if_neg]
        simp [hmax, hlen]

/-- The submit loop's queue is the one of `aneQueueStep`. -/
theorem submit_queue {s s' : HybridRun R} {g : RefGroup} (hrefs : g.refs ≠ 0)
    (hrun : submit c K rt gs refs o s g = some s') :
    (s'.aneGroups, s'.queue) = aneQueueStep c gs o (s.aneGroups, s.queue) g := by
  unfold aneQueueStep
  obtain ⟨hpass, rfl⟩ | ⟨-, hpass, s₁, hs₁, hstart⟩ := submit_cases hrun
  · rw [if_pos (hpass.resolve_left hrefs)]
  · rw [if_neg (by simp [hpass])]
    have hroom : (s₁.aneGroups, s₁.queue) = if s.queue.length = c.aneQueueCap then
        (s.aneGroups + (finishing o (s.queue.take 1)).length, s.queue.drop 1)
        else (s.aneGroups, s.queue) := by
      subst hs₁
      by_cases hfull : s.queue.length = c.aneQueueCap
      · obtain ⟨p, queue, hqueue⟩ : ∃ p queue, s.queue = p :: queue :=
          List.exists_cons_of_length_pos (hfull ▸ c.aneQueueCap_pos)
        rw [if_pos hfull, if_pos hfull, finishOne_cons hqueue, hqueue]
        by_cases hfin : o.finishes p.expert <;> simp [finishing, hfin]
      · rw [if_neg hfull, if_neg hfull]
    dsimp only
    rw [← hroom]
    obtain ⟨hstart, rfl⟩ | ⟨hstart, rfl⟩ := hstart
    · rw [if_neg (by simp [hstart])]
    · rw [if_pos hstart]

/-- The state of the submit loop before its first expert. -/
def hybridStart : HybridRun R :=
  { queue := [], aneMask := fun _ => false, aneGroups := 0, aneRefs := 0, out := fun _ => 0 }

/-- What is known of the jobs `fin ++ s.queue` that were started for the groups `seen`. -/
structure Jobs (c : ResidentConfig) (gs : List RefGroup) (o : AneOutcomes)
    (seen fin : List RefGroup) (s : HybridRun R) : Prop where
  planned : fin ++ s.queue = anePlan c gs o seen ∨
    ((∃ g ∈ fin ++ s.queue, o.finishes g.expert = false) ∧
      ∃ g ∈ anePlan c gs o seen, o.finishes g.expert = false)
  /-- An empty queue means that nothing was started, or that the last start failed. -/
  idle : s.queue = [] → fin = [] ∨ ∃ g ∈ seen, g ∉ fin
  queued : ((s.aneGroups, s.queue), fin ++ s.queue) =
    seen.foldl (aneRunStep c gs o) ((0, []), [])

theorem Jobs.submit {seen fin fin' : List RefGroup} {s s' : HybridRun R} {g : RefGroup}
    (hgrouped : Grouped c.nExpert rt gs refs) (hg : g ∈ gs) (hnew : g ∉ seen)
    (h : Progress c K rt o seen fin s) (hjobs : Jobs c gs o seen fin s)
    (h' : Progress c K rt o (seen ++ [g]) fin' s')
    (hstarted : fin' ++ s'.queue = fin ++ s.queue ++
      if passedOver c gs (s.aneGroups + s.queue.length) g = false ∧ o.starts g.expert = true
      then [g] else [])
    (hrun : submit c K rt gs refs o s g = some s') : Jobs c gs o (seen ++ [g]) fin' s' where
  planned := by
    rw [anePlan_append, hstarted]
    obtain hsame | ⟨⟨p, hp, hpfail⟩, q, hq, hqfail⟩ := hjobs.planned
    · by_cases hall : ∃ p ∈ fin ++ s.queue, o.finishes p.expert = false
      · -- a job fails: it is in the plan, and stays there
        obtain ⟨p, hp, hfail⟩ := hall
        exact .inr ⟨⟨p, List.mem_append_left _ hp, hfail⟩,
          p, List.mem_append_left _ (hsame ▸ hp), hfail⟩
      · -- no job fails, so the jobs are counted in full
        have hfin : finishing o fin = fin := by
          refine List.filter_eq_self.mpr fun p hp => ?_
          by_contra hfail
          exact hall ⟨p, List.mem_append_left _ hp, Bool.eq_false_iff.mpr hfail⟩
        have hcount : s.aneGroups + s.queue.length = (anePlan c gs o seen).length := by
          rw [h.groups, hfin, ← hsame, List.length_append]
        rw [hcount, hsame]
        exact .inl rfl
    · exact .inr ⟨⟨p, List.mem_append_left _ hp, hpfail⟩, q, List.mem_append_left _ hq, hqfail⟩
  idle := by
    intro hqueue
    obtain ⟨hpass, rfl⟩ | ⟨-, hpass, s₁, -, ⟨hstart, rfl⟩ | ⟨hstart, rfl⟩⟩ := submit_cases hrun
    · -- nothing was tried for `g`, so the finished jobs are the same
      have hskip : ¬ (passedOver c gs (s'.aneGroups + s'.queue.length) g = false ∧
          o.starts g.expert = true) := by
        obtain hrefs | hpass := hpass
        · have := (hgrouped.picked g hg).2
          omega
        · simp [hpass]
      rw [if_neg hskip, List.append_nil, hqueue, List.append_nil, List.append_nil] at hstarted
      subst hstarted
      obtain hnone | ⟨p, hp, hpfin⟩ := hjobs.idle hqueue
      · exact .inl hnone
      · exact .inr ⟨p, List.mem_append_left _ hp, hpfin⟩
    · -- the start of `g` failed
      rw [if_neg (by simp [hstart]), List.append_nil] at hstarted
      refine .inr ⟨g, by simp, fun hgfin => hnew (h.jobs.subset ?_)⟩
      rw [← hstarted]
      exact List.mem_append_left _ hgfin
    · simp at hqueue
  queued := by
    have := (hgrouped.picked g hg).2
    rw [List.foldl_append, ← hjobs.queued, hstarted, submit_queue (by omega) hrun]
    rfl

/-- **The submit loop.** -/
theorem submitLoop_spec (hgrouped : Grouped c.nExpert rt gs refs) {s : HybridRun R}
    (hrun : gs.foldlM (submit c K rt gs refs o) hybridStart = some s) :
    ∃ fin, Progress c K rt o gs fin s ∧ Jobs c gs o gs fin s := by
  have hloop : ∀ (rest seen fin : List RefGroup) (s₀ : HybridRun R), seen ++ rest = gs →
      Progress c K rt o seen fin s₀ → Jobs c gs o seen fin s₀ →
      rest.foldlM (submit c K rt gs refs o) s₀ = some s →
      ∃ fin, Progress c K rt o gs fin s ∧ Jobs c gs o gs fin s := by
    intro rest
    induction rest with
    | nil =>
      intro seen fin s₀ hsplit h hjobs hrun
      rw [List.append_nil] at hsplit
      subst hsplit
      rw [List.foldlM_nil] at hrun
      cases hrun
      exact ⟨fin, h, hjobs⟩
    | cons g rest ih =>
      intro seen fin s₀ hsplit h hjobs hrun
      rw [List.foldlM_cons] at hrun
      obtain ⟨s₁, hone, hrest⟩ := Option.bind_eq_some_iff.mp hrun
      have hg : g ∈ gs := hsplit ▸ by simp
      have hnew : g ∉ seen := by
        have hnodup : gs.Nodup := hgrouped.nodup.of_map _
        rw [← hsplit] at hnodup
        exact fun hseen => (List.nodup_append.mp hnodup).2.2 g hseen g (by simp) rfl
      obtain ⟨fin₁, h₁, hstarted⟩ :=
        h.submit hgrouped hg (fun p hp => hsplit ▸ List.mem_append_left _ hp) hone
      exact ih (seen ++ [g]) fin₁ s₁ (by simpa using hsplit) h₁
        (hjobs.submit hgrouped hg hnew h h₁ hstarted hone) hrest
  refine hloop gs [] [] hybridStart rfl ⟨?_, fun t => rfl, fun e => ?_, rfl, rfl⟩
    ⟨.inl ?_, fun _ => .inl rfl, rfl⟩ hrun
  · exact List.Sublist.refl _
  · simp [hybridStart]
  · unfold anePlan
    cases c.useAneNaxBalance <;> simp [hybridStart]

/-! ### The cold tail -/

/-- Groups of the table with their own expert each. -/
theorem Grouped.expert_inj (h : Grouped c.nExpert rt gs refs) {g g' : RefGroup} (hg : g ∈ gs)
    (hg' : g' ∈ gs) (he : g.expert = g'.expert) : g = g' :=
  List.inj_on_of_nodup_map h.nodup hg hg' he

theorem coldGroups_eq (h : Grouped c.nExpert rt gs refs) (mask : Int → Bool) :
    coldGroups mask gs = gs.filter fun g => !mask g.expert := by
  refine List.filter_congr fun g hg => ?_
  have := (h.picked g hg).2
  simp [Nat.ne_of_gt this]

theorem coldRefs_ne_zero (h : Grouped c.nExpert rt gs refs) (mask : Int → Bool) :
    ((coldGroups mask gs).map RefGroup.refs).sum ≠ 0 ↔ coldGroups mask gs ≠ [] := by
  constructor
  · intro hsum hnil
    rw [hnil] at hsum
    exact hsum rfl
  · intro hne hsum
    obtain ⟨g, hg⟩ := List.exists_mem_of_ne_nil _ hne
    have hpos := (h.picked g (List.mem_of_mem_filter hg)).2
    have hzero : g.refs = 0 :=
      List.sum_eq_zero_iff_forall_eq_nat.mp hsum g.refs (List.mem_map_of_mem hg)
    omega

/-- Running experts one at a time pays what they owe. -/
theorem runExperts_eq (h : Grouped c.nExpert rt gs refs) (hroom : ∀ g ∈ gs, g.refs ≤ rt.nTokens)
    (l : List RefGroup) (hl : ∀ g ∈ l, g ∈ gs) (out : Nat → R) :
    ∃ out', l.foldlM (runExpert K rt refs) out = some out' ∧
      ∀ t, out' t = out t + owed K rt t l := by
  induction l generalizing out with
  | nil => exact ⟨out, rfl, fun t => by simp⟩
  | cons g l ih =>
    have hg := hl g (List.mem_cons_self ..)
    have hone : runExpert K rt refs out g =
        some (scatterAdd out (expertRows K g.expert (segment refs g.start g.refs))) := by
      unfold runExpert
      rw [if_neg (Nat.ne_of_gt (h.picked g hg).2), if_neg (Nat.not_lt.mpr (hroom g hg))]
    obtain ⟨out', hrun, hrows⟩ := ih (fun g' hg' => hl g' (List.mem_cons_of_mem _ hg'))
      (scatterAdd out (expertRows K g.expert (segment refs g.start g.refs)))
    refine ⟨out', ?_, fun t => ?_⟩
    · rw [List.foldlM_cons, hone]
      exact hrun
    · rw [hrows, h.scatterAdd_expertRows hg, owed_cons, add_assoc]

/-- The grouped kernel pays every expert that is not skipped. -/
theorem routedMoeBatchTiled_eq (h : Grouped c.nExpert rt gs refs) (skip : Int → Bool) {t : Nat}
    (ht : t < rt.nTokens) :
    routedMoeBatchTiled K rt skip t = owed K rt t (gs.filter fun g => !skip g.expert) := by
  refine Eq.trans ?_ (h.sum_contrib_filter K (fun e => !skip e) ht).symm
  refine congrArg List.sum (List.map_congr_left fun k _ => ?_)
  by_cases hskip : skip (rt.trueIds (t * rt.used + k)) <;> simp [hskip]

/-- The grouped tail finds no contribution of the ANE and overwrites the output. -/
def TailOverwrites (c : ResidentConfig) (gs : List RefGroup) (s : HybridRun R) : Prop :=
  coldGroups s.aneMask gs ≠ [] ∧ c.useAneGpuTailGatherScatter = false ∧
    ((c.useAneNaxOverlap = true ∧ s.queue = []) ∨ (c.useAneNaxOverlap = false ∧ s.aneRefs = 0))

/-- What the tail adds: the experts outside the mask, and the jobs that are still queued. -/
theorem coldTail_spec (h : Grouped c.nExpert rt gs refs) (hroom : ∀ g ∈ gs, g.refs ≤ rt.nTokens)
    {s : HybridRun R} (hjobs : ∀ p ∈ s.queue, p ∈ gs)
    (hdrained : c.useAneTailOverlap = false → s.queue = []) :
    ∃ s', coldTail c K rt gs refs o s = some s' ∧ ∀ t < rt.nTokens,
      (TailOverwrites c gs s → s'.out t = routedRow K rt t) ∧
      (¬ TailOverwrites c gs s → s'.out t = s.out t + owed K rt t (coldGroups s.aneMask gs) +
        owed K rt t (finishing o s.queue)) := by
  have hdrain : ∀ out : Nat → R, ∀ t, (drain K refs o { s with out }).out t =
      out t + owed K rt t (finishing o s.queue) := fun out =>
    (drain_spec (s := { s with out }) h hjobs).2.out
  unfold coldTail
  dsimp only
  by_cases hcold : coldGroups s.aneMask gs = []
  · -- every expert is on the ANE
    have hover : ¬ TailOverwrites c gs s := fun hover => hover.1 hcold
    have hzero : ¬ ((coldGroups s.aneMask gs).map RefGroup.refs).sum ≠ 0 := by
      rw [coldRefs_ne_zero h]
      simp [hcold]
    rw [if_neg fun hand => hzero hand.1, if_neg hzero]
    by_cases hqueue : c.useAneTailOverlap = true ∧ s.queue ≠ []
    · rw [if_pos hqueue]
      refine ⟨_, rfl, fun t _ => ⟨fun ht => absurd ht hover, fun _ => ?_⟩⟩
      rw [hcold, owed_nil, add_zero]
      exact hdrain s.out t
    · rw [if_neg hqueue]
      have hnil : s.queue = [] := by
        by_contra hne
        refine hne (hdrained (Bool.eq_false_iff.mpr fun hov => hqueue ⟨hov, hne⟩))
      refine ⟨_, rfl, fun t _ => ⟨fun ht => absurd ht hover, fun _ => ?_⟩⟩
      rw [hcold, hnil]
      simp [finishing]
  have hsum := (coldRefs_ne_zero h s.aneMask).mpr hcold
  by_cases hgather : c.useAneGpuTailGatherScatter = true
  · -- the cold experts run one at a time
    have hover : ¬ TailOverwrites c gs s := fun hover =>
      Bool.false_ne_true (hover.2.1.symm.trans hgather)
    obtain ⟨out, hrun, hrows⟩ := runExperts_eq (K := K) h hroom (coldGroups s.aneMask gs)
      (fun g hg => List.mem_of_mem_filter hg) s.out
    rw [if_pos ⟨hsum, hgather⟩, hrun]
    by_cases hlap : c.useAneGpuTailOverlap = true
    · refine ⟨drain K refs o { s with out }, ?_, fun t _ =>
        ⟨fun ht => absurd ht hover, fun _ => ?_⟩⟩
      · show (if c.useAneGpuTailOverlap = true then _ else _) = _
        rw [if_pos hlap]
      · rw [hdrain, hrows]
    · refine ⟨{ s with out }, ?_, fun t _ => ⟨fun ht => absurd ht hover, fun _ => ?_⟩⟩
      · show (if c.useAneGpuTailOverlap = true then _ else _) = _
        rw [if_neg hlap]
      · -- without its overlap this tail has none: the queue was drained before
        have hnil : s.queue = [] := hdrained (by
          unfold ResidentConfig.useAneTailOverlap
          have hnax : c.useAneNaxOverlap = false := by
            unfold ResidentConfig.useAneGpuTailGatherScatter at hgather
            unfold ResidentConfig.useAneNaxOverlap
            revert hgather
            cases c.useAneNax <;> simp
          simp [hnax, hlap])
        rw [hnil]
        simpa [finishing] using hrows t
  rw [if_neg fun hand => hgather hand.2, if_pos hsum]
  have hgather := Bool.eq_false_iff.mpr hgather
  have hlap : c.useAneTailOverlap = c.useAneNaxOverlap := by
    unfold ResidentConfig.useAneTailOverlap ResidentConfig.useAneGpuTailOverlap
    simp [hgather]
  -- the grouped tail pays the experts outside the mask, or all of them
  have htail : ∀ t < rt.nTokens, routedMoeBatchTiled K rt s.aneMask t =
      owed K rt t (coldGroups s.aneMask gs) := fun t ht => by
    rw [routedMoeBatchTiled_eq h _ ht, coldGroups_eq h]
  have hfull : ∀ t < rt.nTokens, routedMoeBatchTiled K rt (fun _ => false) t =
      routedRow K rt t := fun t ht => by
    rw [routedMoeBatchTiled_eq h _ ht, ← h.sum_contrib K ht]
    simp [owed]
  by_cases hnax : c.useAneNaxOverlap = true
  · by_cases hqueue : s.queue = []
    · have hover : TailOverwrites c gs s := ⟨hcold, hgather, .inl ⟨hnax, hqueue⟩⟩
      rw [if_neg (by simp [hnax, hqueue]), if_pos hnax]
      refine ⟨_, rfl, fun t ht => ⟨fun _ => ?_, fun hnot => absurd hover hnot⟩⟩
      rw [hdrain, hfull t ht, hqueue]
      simp [finishing]
    · have hover : ¬ TailOverwrites c gs s := by
        rintro ⟨-, -, ⟨-, hnil⟩ | ⟨hno, -⟩⟩
        · exact hqueue hnil
        · simp [hno] at hnax
      rw [if_pos (by simp [hnax, hqueue]), if_pos hnax]
      refine ⟨_, rfl, fun t ht => ⟨fun hyes => absurd hyes hover, fun _ => ?_⟩⟩
      show (drain K refs o s).out t + routedMoeBatchTiled K rt s.aneMask t = _
      rw [htail t ht, show (drain K refs o s).out t = _ from hdrain s.out t, add_right_comm]
  · have hnil : s.queue = [] := hdrained (by rw [hlap, Bool.eq_false_iff.mpr hnax])
    by_cases hane : s.aneRefs = 0
    · have hover : TailOverwrites c gs s :=
        ⟨hcold, hgather, .inr ⟨Bool.eq_false_iff.mpr hnax, hane⟩⟩
      rw [if_neg (by simp [hnax, hane]), if_neg hnax]
      exact ⟨_, rfl, fun t ht => ⟨fun _ => hfull t ht, fun hnot => absurd hover hnot⟩⟩
    · have hover : ¬ TailOverwrites c gs s := by
        rintro ⟨-, -, ⟨hyes, -⟩ | ⟨-, hzero⟩⟩
        · exact hnax hyes
        · exact hane hzero
      rw [if_pos (by simp [hnax, hane]), if_neg hnax]
      refine ⟨_, rfl, fun t ht => ⟨fun hyes => absurd hyes hover, fun _ => ?_⟩⟩
      show s.out t + routedMoeBatchTiled K rt s.aneMask t = _
      rw [htail t ht, hnil]
      simp [finishing]

end DS4.FlashMoe
