import DS4.Lib.Run
import DS4.FlashMoe.InFlight

namespace DS4.FlashMoe

/-!
# Flash-MoE — the cache over whole runs

The graph owns one bank per layer and the LRU clock.  One thread drives it, so between the
start of an asynchronous step and its end only that step touches the cache: `pending` is the
step, and every other operation waits for it.

* `Graph`, `Op`, `step` — the machine; what the environment decides is part of the input.
* `OpKeeps` — the operation leaves no wrong bytes under a name that stays.
* `step_coherent`, `run_coherent` — coherence is kept by a step, and by a run.
* `resident_bytes_of_keeps` — **expert cache coherence** over every run that starts with a fresh
  allocation.
* `failed_install_leaves_wrong_bytes` — a run that breaks it.
* `installLoop_installs`, `finishLoads_joins` — the loops of the source are runs of the machine.
-/

variable {ρ : Type}

/-! ### The machine -/

/-- The asynchronous step in progress on layer `il`.  After a failure its loads are only waited
    for. -/
structure Pending (ρ : Type) where
  il : Nat
  sequentialScratch : Bool
  loads : List (Load ρ)
  failed : Bool

/-- The expert cache of a `ds4_gpu_graph`. -/
structure Graph (ρ : Type) where
  layer : Nat → Layer ρ
  flashAge : UInt64
  pending : Option (Pending ρ)

namespace Graph

/-- The bank of layer `il`. -/
def bank (g : Graph ρ) (il : Nat) : Bank ρ := { g.layer il with flashAge := g.flashAge }

/-- Put back the bank of layer `il`. -/
def setBank (g : Graph ρ) (il : Nat) (b : Bank ρ) : Graph ρ :=
  { g with layer := Function.update g.layer il b.toLayer, flashAge := b.flashAge }

end Graph

/-- `metal_graph_flash_moe_init_direct_mmap_identity` for one layer. -/
def Level.initIdentity (lv : Level ρ) (nExpert il : Nat) : Level ρ :=
  { lv with
    slotToExpert := fun s => if s < nExpert then some s else lv.slotToExpert s
    expertToSlot := fun e => if e < nExpert then some e else lv.expertToSlot e
    slotAge := fun s =>
      if s < nExpert then UInt64.ofNat (il * nExpert + s + 1) else lv.slotAge s }

/-- `metal_graph_flash_moe_reset_slot_cache`: L1 forgets everything, except that a direct-mapped
    bank maps every expert to itself again. -/
def resetSlotCache (cfg : Config) (g : Graph ρ) : Graph ρ :=
  let mapped := cfg.directMmapBank && decide (cfg.nExpert ≤ cfg.slotBank)
  { g with
    layer := fun il =>
      if il < cfg.nLayer then
        { g.layer il with
          l1 := if mapped then (g.layer il).l1.reset.initIdentity cfg.nExpert il
            else (g.layer il).l1.reset }
      else g.layer il
    flashAge := if mapped then UInt64.ofNat (cfg.nLayer * cfg.nExpert) else 0 }

/-- One slot of `metal_graph_flash_moe_l2_capture_before_shrink`. -/
def l2Capture (cfg : Config) (b : Bank ρ) (slot : Nat) : Bank ρ :=
  match b.l1.slotToExpert slot with
  | some e => if cfg.mixedSlotBank ∧ slot < cfg.slotBank then
      l2StoreRecord cfg b e (b.l1.bytes slot) else b
  | none => b

/-- The operations on the cache, with what the environment does in them. -/
inductive Op (ρ : Type) where
  | install (il e : Nat) (protectedExperts : Nat → Bool) (io : InstallIo ρ)
  | sixSlot (il e k : Nat) (io : InstallIo ρ)
  | prefetchSlot (il e : Nat) (upload : Write ρ)
  | prefetch (il : Nat) (ids : List Nat) (io : PrefetchIo ρ)
  | handout (il : Nat) (ids : List Nat) (io : AsyncIo ρ)
  | join (i : Nat) (io : LoadIo ρ)
  | cleanup
  | capture (il slot : Nat)
  | invalidate (il slot : Nat)
  | reset

/-- The join of load `i` of the step in progress. -/
def joinPending (cfg : Config) (g : Graph ρ) (p : Pending ρ) (i : Nat) (io : LoadIo ρ) :
    Graph ρ :=
  match p.loads[i]? with
  | none   => g
  | some l =>
    let r := joinLoad cfg p.sequentialScratch io (g.bank p.il) l
    { g.setBank p.il r.1 with
      pending := some
        (if r.2 = .failed then { p with failed := true }
        else { p with loads := p.loads.eraseIdx i }) }

/-- One operation.  While a step is in progress only its joins and its end do anything. -/
def step (cfg : Config) (sidecar : Nat → Nat → ρ) (g : Graph ρ) (op : Op ρ) : Graph ρ :=
  match g.pending with
  | some p =>
    match op with
    | .join i io => if p.failed then g else joinPending cfg g p i io
    | .cleanup   => { g with pending := none }
    | _          => g
  | none =>
    match op with
    | .install il e prot io =>
      if il < cfg.nLayer then
        g.setBank il (install cfg (sidecar il) io (g.bank il) e prot).1 else g
    | .sixSlot il e k io =>
      if il < cfg.nLayer ∧ cfg.sixSlots ∧ k < cfg.expertUsed then
        g.setBank il (sixSlotLoad cfg (sidecar il) io (g.bank il) e k).1 else g
    | .prefetchSlot il e upload =>
      if il < cfg.nLayer then
        g.setBank il (prefetchSlotFromBuf cfg (sidecar il) upload (g.bank il) e).1 else g
    | .prefetch il ids io =>
      if il < cfg.nLayer then
        let out := prefetchRoutes cfg (sidecar il) io (g.bank il) ids
        { g.setBank il out.1.bank with
          pending := some ⟨il, cfg.prefetchScratchOnly, out.1.loads, !out.2⟩ }
      else g
    | .handout il ids io =>
      if il < cfg.nLayer then
        let out := asyncHandout cfg (sidecar il) io (g.bank il) ids
        { g.setBank il out.1 with
          pending := some ⟨il, false, out.2.getD [], out.2.isNone⟩ }
      else g
    | .capture il slot =>
      if il < cfg.nLayer then g.setBank il (l2Capture cfg (g.bank il) slot) else g
    | .invalidate il slot =>
      if il < cfg.nLayer then g.setBank il ((g.bank il).invalidateDecodeSlot cfg slot) else g
    | .reset => resetSlotCache cfg g
    | .join _ _ => g
    | .cleanup => g

/-- **When an operation is harmless.** A load that fails, a captured or copied record and a load
    that is given up leave wrong bytes only in slots that name no expert. -/
def OpKeeps (cfg : Config) (sidecar : Nat → Nat → ρ) (g : Graph ρ) (op : Op ρ) : Prop :=
  match g.pending with
  | some p =>
    match op with
    | .join i io => ∀ l, p.loads[i]? = some l →
        JoinKeeps cfg (sidecar p.il) io (g.bank p.il) l
    | .cleanup   => AbandonKeeps (sidecar p.il) p.loads
    | _          => True
  | none =>
    match op with
    | .install il e prot io => ∀ s, installVictim cfg (g.bank il) e prot = some s →
        InstallKeeps cfg (sidecar il) io (g.bank il) e s
    | .sixSlot il e k io => io.fails (io.fileSource cfg) →
        io.FileFailureKeeps cfg (sidecar il) e ((g.layer il).l1.slotToExpert k)
    | _ => True

/-! ### Coherence -/

/-- Every layer is sound; the layer of the step in progress fits its loads. -/
def Graph.Coherent (cfg : Config) (sidecar : Nat → Nat → ρ) (g : Graph ρ) : Prop :=
  match g.pending with
  | none   => ∀ il, (g.bank il).Sound cfg (sidecar il) fun _ => False
  | some p => (∀ il, il ≠ p.il → (g.bank il).Sound cfg (sidecar il) fun _ => False) ∧
      LoadsSound cfg (sidecar p.il) p.sequentialScratch (g.bank p.il) p.loads

variable {cfg : Config} {sidecar : Nat → Nat → ρ} {g : Graph ρ}

theorem Graph.bank_setBank_self (g : Graph ρ) (il : Nat) (b : Bank ρ) :
    (g.setBank il b).bank il = b := by
  simp [Graph.bank, Graph.setBank]

/-- Changing one layer keeps the others sound. -/
theorem Graph.setBank_sound_of_ne {il il' : Nat} (hne : il' ≠ il) (b : Bank ρ)
    (h : (g.bank il').Sound cfg (sidecar il') fun _ => False) :
    ((g.setBank il b).bank il').Sound cfg (sidecar il') fun _ => False := by
  refine h.congr_l1 ?_ ?_ ?_ ?_ ?_ <;>
    simp [Graph.bank, Graph.setBank, Function.update_of_ne hne]

/-- A settled graph stays coherent when one layer gets a sound bank. -/
theorem Graph.Coherent.setBank (h : ∀ il, (g.bank il).Sound cfg (sidecar il) fun _ => False)
    (hp : g.pending = none) {il : Nat} {b : Bank ρ}
    (hb : b.Sound cfg (sidecar il) fun _ => False) :
    (g.setBank il b).Coherent cfg sidecar := by
  have hp' : (g.setBank il b).pending = none := hp
  unfold Graph.Coherent
  rw [hp']
  intro il'
  by_cases hne : il' = il
  · subst hne
    rwa [Graph.bank_setBank_self]
  · exact Graph.setBank_sound_of_ne hne b (h il')

/-- A step on layer `il` is in progress and its loads fit. -/
theorem Graph.Coherent.setPending
    (h : ∀ il', il' ≠ il → (g.bank il').Sound cfg (sidecar il') fun _ => False)
    {p : Pending ρ} {b : Bank ρ} (hil : p.il = il)
    (hb : LoadsSound cfg (sidecar il) p.sequentialScratch b p.loads) :
    ({ g.setBank il b with pending := some p } : Graph ρ).Coherent cfg sidecar := by
  subst hil
  refine ⟨fun il' hne => Graph.setBank_sound_of_ne hne b (h il' hne), ?_⟩
  have : ({ g.setBank p.il b with pending := some p } : Graph ρ).bank p.il = b :=
    Graph.bank_setBank_self g p.il b
  rwa [this]

/-- Capturing a slot of a sound bank. -/
theorem l2Capture_sound {rec : Nat → ρ} {b : Bank ρ} (h : b.Sound cfg rec fun _ => False)
    (slot : Nat) : (l2Capture cfg b slot).Sound cfg rec fun _ => False := by
  unfold l2Capture
  cases he : b.l1.slotToExpert slot with
  | none => exact h
  | some e =>
    dsimp only
    split
    · exact l2StoreRecord_sound h (h.l1 slot id e he)
    · exact h

/-- **Reset.** Slots that name nobody, or the expert mapped there. -/
theorem resetSlotCache_coherent (hp : g.pending = none)
    (h : ∀ il, (g.bank il).Sound cfg (sidecar il) fun _ => False) :
    (resetSlotCache cfg g).Coherent cfg sidecar := by
  have hp' : (resetSlotCache cfg g).pending = none := hp
  unfold Graph.Coherent
  rw [hp']
  intro il
  have hs := h il
  by_cases hil : il < cfg.nLayer
  · refine ⟨?_, ?_, ?_, ?_⟩
    · intro s _ a ha
      simp only [Graph.bank, resetSlotCache, if_pos hil] at ha ⊢
      split at ha
      · rename_i hm
        simp only [Bool.and_eq_true, decide_eq_true_eq] at hm
        simp only [hm, decide_true, Bool.and_self, if_true]
        simp only [Level.initIdentity, Level.reset] at ha
        split at ha
        · rename_i hlt
          obtain rfl : s = a := Option.some.inj ha
          exact hs.identity (by simp [Config.identity, hm.1]) s ⟨by omega, Or.inl hm.1⟩
        · cases ha
      · cases ha
    · simpa only [Graph.bank, resetSlotCache, if_pos hil] using hs.l2
    · simpa only [Graph.bank, resetSlotCache, if_pos hil] using hs.gpuL2
    · intro hi e he
      have hb : ((resetSlotCache cfg g).bank il).l1.bytes = (g.bank il).l1.bytes := by
        simp only [Graph.bank, resetSlotCache, if_pos hil]
        split <;> rfl
      rw [hb]
      refine hs.identity hi e ⟨he.1, ?_⟩
      simpa only [Graph.bank, resetSlotCache, if_pos hil] using he.2
  · refine hs.congr_l1 ?_ ?_ ?_ ?_ ?_ <;>
      simp only [Graph.bank, resetSlotCache, if_neg hil]

/-- **Joins** of the step in progress. -/
theorem joinPending_coherent {p : Pending ρ} {i : Nat} {io : LoadIo ρ}
    (hp : g.pending = some p) (h : g.Coherent cfg sidecar)
    (hk : ∀ l, p.loads[i]? = some l → JoinKeeps cfg (sidecar p.il) io (g.bank p.il) l) :
    (joinPending cfg g p i io).Coherent cfg sidecar := by
  have hc := h
  unfold Graph.Coherent at hc
  rw [hp] at hc
  obtain ⟨hother, hloads⟩ := hc
  unfold joinPending
  cases hl : p.loads[i]? with
  | none => exact h
  | some l =>
    obtain ⟨hi, hget⟩ := List.getElem?_eq_some_iff.mp hl
    -- split the list of loads at position `i`
    have hsplit : p.loads = p.loads.take i ++ l :: p.loads.drop (i + 1) := by
      rw [← hget, List.getElem_cons_drop hi, List.take_append_drop]
    have herase : p.loads.eraseIdx i = p.loads.take i ++ p.loads.drop (i + 1) :=
      List.eraseIdx_eq_take_drop_succ p.loads i
    rw [hsplit] at hloads
    obtain ⟨hstored, hfailed⟩ := joinLoad_loadsSound io hloads (hk l hl)
    dsimp only
    by_cases hr : (joinLoad cfg p.sequentialScratch io (g.bank p.il) l).2 = .failed
    · rw [if_pos hr]
      have hls := hfailed hr
      rw [← hsplit] at hls
      exact Graph.Coherent.setPending hother rfl hls
    · rw [if_neg hr]
      have hls := hstored hr
      rw [← herase] at hls
      exact Graph.Coherent.setPending hother rfl hls

/-- **Step lemma.** A harmless operation keeps the cache coherent. -/
theorem step_coherent (g : Graph ρ) (op : Op ρ) (h : g.Coherent cfg sidecar)
    (hk : OpKeeps cfg sidecar g op) : (step cfg sidecar g op).Coherent cfg sidecar := by
  have hc := h
  unfold Graph.Coherent at hc
  unfold OpKeeps at hk
  unfold step
  cases hp : g.pending with
  | some p =>
    rw [hp] at hc hk
    cases op with
    | join i io =>
      dsimp only at hk ⊢
      split
      · exact h
      · exact joinPending_coherent hp h hk
    | cleanup =>
      intro il
      by_cases hne : il = p.il
      · subst hne
        exact hc.2.abandon hk
      · exact hc.1 il hne
    | _ => exact h
  | none =>
    rw [hp] at hc hk
    cases op with
    | install il e prot io =>
      dsimp only at hk ⊢
      split
      · exact Graph.Coherent.setBank hc hp (install_sound io (hc il) hk)
      · exact h
    | sixSlot il e k io =>
      dsimp only at hk ⊢
      split
      · rename_i hs
        have hid : cfg.identity = false := by
          have := hs.2.1
          simp only [Config.sixSlots, Bool.and_eq_true, Bool.not_eq_true'] at this
          simp [Config.identity, this.1.1.2, this.1.2]
        exact Graph.Coherent.setBank hc hp (sixSlotLoad_sound io (hc il) hid hk)
      · exact h
    | prefetchSlot il e upload =>
      dsimp only
      split
      · exact Graph.Coherent.setBank hc hp (prefetchSlotFromBuf_sound upload (hc il) e)
      · exact h
    | prefetch il ids io =>
      dsimp only
      split
      · exact Graph.Coherent.setPending (fun il' _ => hc il') rfl
          (prefetchRoutes_sound io ids (hc il))
      · exact h
    | handout il ids io =>
      dsimp only
      split
      · exact Graph.Coherent.setPending (fun il' _ => hc il') rfl
          (asyncHandout_sound io ids (hc il))
      · exact h
    | capture il slot =>
      dsimp only
      split
      · exact Graph.Coherent.setBank hc hp (l2Capture_sound (hc il) slot)
      · exact h
    | invalidate il slot =>
      dsimp only
      split
      · exact Graph.Coherent.setBank hc hp ((hc il).invalidate slot)
      · exact h
    | reset => exact resetSlotCache_coherent hp hc
    | join i io => exact h
    | cleanup => exact h

/-- **Run lemma.** -/
theorem run_coherent {ops : List (Op ρ)} (h : g.Coherent cfg sidecar)
    (hk : Lib.Guarded (step cfg sidecar) (OpKeeps cfg sidecar) g ops) :
    (ops.foldl (step cfg sidecar) g).Coherent cfg sidecar :=
  hk.invariant (fun s op hs ho => step_coherent s op hs ho) h

/-! ### Runs from a fresh allocation -/

/-- The cache after allocation: every table is empty, the identity layouts map every expert to
    itself, and the slots have whatever bytes the allocation left or preloaded. -/
def Graph.alloc (cfg : Config) (bytes gpuBytes : Nat → Nat → ρ) (expertBank : Nat → Nat → Bool) :
    Graph ρ where
  layer il :=
    { l1 :=
        { slotToExpert := fun s => if cfg.identity && decide (s < cfg.nExpert) then some s else none
          expertToSlot := fun e => if cfg.identity && decide (e < cfg.nExpert) then some e else none
          slotAge := fun _ => 0
          bytes := bytes il }
      l2 := ⟨fun _ => none, fun _ => none, fun _ => 0, fun _ => none⟩
      gpuL2 := ⟨fun _ => none, fun _ => none, fun _ => 0, gpuBytes il⟩
      expertBank := expertBank il }
  flashAge := 0
  pending := none

/-- In the identity layouts the allocation maps or preloads every record. -/
def Preloaded (cfg : Config) (sidecar bytes : Nat → Nat → ρ) : Prop :=
  cfg.identity = true → ∀ il e, e < cfg.nExpert → bytes il e = sidecar il e

/-- A fresh allocation is coherent. -/
theorem alloc_coherent {bytes gpuBytes : Nat → Nat → ρ} {expertBank : Nat → Nat → Bool}
    (hpre : Preloaded cfg sidecar bytes) (hbank : cfg.identity = true → cfg.slotBank = cfg.nExpert) :
    (Graph.alloc cfg bytes gpuBytes expertBank).Coherent cfg sidecar := by
  intro il
  refine ⟨?_, fun _ _ => keeps_none _ _, fun _ _ => keeps_none _ _, ?_⟩
  · intro s _ a ha
    simp only [Graph.bank, Graph.alloc, Bool.and_eq_true, decide_eq_true_eq] at ha ⊢
    split at ha
    · rename_i hc
      obtain rfl : s = a := Option.some.inj ha
      exact hpre hc.1 il s hc.2
    · cases ha
  · intro hi e he
    exact hpre hi il e (hbank hi ▸ he.1)

/-- A slot that a direct read of the step in progress is overwriting. -/
def Graph.Overwriting (g : Graph ρ) (il s : Nat) : Prop :=
  ∃ p, g.pending = some p ∧ p.il = il ∧ Loading p.loads s

/-- **Expert cache coherence.** Start with a fresh allocation and run any operations, each
    harmless where it is applied.  Then an expert that the tables of a level place in a slot has
    its record there, unless the step in progress is overwriting the slot. -/
theorem resident_bytes_of_keeps (bytes gpuBytes : Nat → Nat → ρ) (expertBank : Nat → Nat → Bool)
    (hpre : Preloaded cfg sidecar bytes) (hbank : cfg.identity = true → cfg.slotBank = cfg.nExpert)
    (ops : List (Op ρ))
    (hk : Lib.Guarded (step cfg sidecar) (OpKeeps cfg sidecar)
      (Graph.alloc cfg bytes gpuBytes expertBank) ops)
    (il e s : Nat) :
    let g := ops.foldl (step cfg sidecar) (Graph.alloc cfg bytes gpuBytes expertBank)
    (¬ g.Overwriting il s → (g.layer il).l1.Holds e s → (g.layer il).l1.bytes s = sidecar il e) ∧
      ((g.layer il).l2.Holds e s → (g.layer il).l2.bytes s = some (sidecar il e)) ∧
      ((g.layer il).gpuL2.Holds e s → (g.layer il).gpuL2.bytes s = sidecar il e) := by
  intro g
  have hc : g.Coherent cfg sidecar := run_coherent (alloc_coherent hpre hbank) hk
  have hsound : (g.bank il).Sound cfg (sidecar il) (g.Overwriting il) := by
    unfold Graph.Coherent at hc
    cases hp : g.pending with
    | none =>
      rw [hp] at hc
      exact (hc il).weaken fun _ hn => hn.elim
    | some p =>
      rw [hp] at hc
      by_cases hil : il = p.il
      · subst hil
        exact hc.2.bank.weaken fun s hs => ⟨p, hp, rfl, hs⟩
      · exact (hc.1 il hil).weaken fun _ hn => hn.elim
  exact ⟨fun hn hh => hsound.l1 s hn e hh.1, fun hh => hsound.l2 s id e hh.1,
    fun hh => hsound.gpuL2 s id e hh.1⟩

/-! ### The loops of the source as runs -/

theorem Graph.setBank_bank (g : Graph ρ) (il : Nat) : g.setBank il (g.bank il) = g := by
  simp [Graph.setBank, Graph.bank]

theorem Graph.setBank_setBank (g : Graph ρ) (il : Nat) (b b' : Bank ρ) :
    (g.setBank il b).setBank il b' = g.setBank il b' := by
  simp [Graph.setBank]

/-- The install loop of `metal_graph_flash_moe_prepare_decode` is a run of installs. -/
theorem installLoop_installs (hp : g.pending = none) {il : Nat} (hil : il < cfg.nLayer)
    (io : Nat → InstallIo ρ) (ids : List Nat) (k : Nat) (prot : Nat → Bool) :
    ∃ ops : List (Op ρ), (∀ op ∈ ops, ∃ e pr i, op = .install il e pr i) ∧
      ops.foldl (step cfg sidecar) g =
        g.setBank il (installLoop cfg (sidecar il) io k (g.bank il) prot ids).1 := by
  induction ids generalizing g k prot with
  | nil => exact ⟨[], by simp, (g.setBank_bank il).symm⟩
  | cons e es ih =>
    unfold installLoop
    have hstep : step cfg sidecar g (.install il e prot (io k)) =
        g.setBank il (install cfg (sidecar il) (io k) (g.bank il) e prot).1 := by
      unfold step
      rw [hp]
      exact if_pos hil
    cases hr : install cfg (sidecar il) (io k) (g.bank il) e prot with
    | mk b' out =>
    rw [hr] at hstep
    cases out with
    | none =>
      exact ⟨[.install il e prot (io k)], by simp, by simpa using hstep⟩
    | some slot =>
      have hp' : (g.setBank il b').pending = none := hp
      obtain ⟨ops, hops, hrun⟩ := ih hp' (k + 1) (Function.update prot e true)
      rw [Graph.bank_setBank_self, Graph.setBank_setBank] at hrun
      refine ⟨.install il e prot (io k) :: ops, ?_, ?_⟩
      · intro op hop
        rcases List.mem_cons.mp hop with rfl | hop
        · exact ⟨e, prot, io k, rfl⟩
        · exact hops op hop
      · rw [List.foldl_cons, hstep, hrun]
        dsimp only
        split <;> rename_i heq <;> rw [heq]

/-- After a failure the finish loop only releases. -/
theorem finishLoads_bank_of_failed (seq : Bool) (io : Nat → LoadIo ρ) (loads : List (Load ρ))
    (i : Nat) (st : Finish ρ) (hok : st.ok = false) :
    (finishLoads cfg seq io i st loads).bank = st.bank := by
  induction loads generalizing i st with
  | nil => rfl
  | cons l ls ih =>
    unfold finishLoads
    have h₁ : finishLoad cfg seq (io i) st l =
        { st with needsSyncPrepare := st.needsSyncPrepare || seq && !l.job.complete } := by
      simp [finishLoad, hok]
    rw [h₁]
    exact ih _ _ hok

/-- `metal_graph_flash_moe_decode_prefetch_finish` is a run of joins and the end of the step. -/
theorem finishLoads_joins (seq : Bool) (io : Nat → LoadIo ρ) {il : Nat} (loads : List (Load ρ))
    (i : Nat) (st : Finish ρ) (hok : st.ok = true) (hb : g.bank il = st.bank)
    (hp : g.pending = some ⟨il, seq, loads, false⟩) :
    ∃ ops : List (Op ρ), (∀ op ∈ ops, op = .cleanup ∨ ∃ io', op = .join 0 io') ∧
      ops.foldl (step cfg sidecar) g =
        { g.setBank il (finishLoads cfg seq io i st loads).bank with pending := none } := by
  induction loads generalizing g i st with
  | nil =>
    refine ⟨[.cleanup], by simp, ?_⟩
    have hg : g.setBank il st.bank = g := by rw [← hb, Graph.setBank_bank]
    simp [step, hp, finishLoads, hg]
  | cons l ls ih =>
    have hstep : step cfg sidecar g (.join 0 (io i)) =
        { g.setBank il (joinLoad cfg seq (io i) st.bank l).1 with
          pending := some
            (if (joinLoad cfg seq (io i) st.bank l).2 = .failed then ⟨il, seq, l :: ls, true⟩
            else ⟨il, seq, ls, false⟩) } := by
      unfold step
      rw [hp]
      simp [joinPending, hb]
    unfold finishLoads
    by_cases hf : (joinLoad cfg seq (io i) st.bank l).2 = .failed
    · -- the rest of the loop leaves the bank alone
      have hst : (finishLoad cfg seq (io i) st l).ok = false ∧
          (finishLoad cfg seq (io i) st l).bank = (joinLoad cfg seq (io i) st.bank l).1 := by
        unfold finishLoad
        rw [if_pos hok]
        split <;> rename_i hr <;> rw [hr] at hf
        · cases hf
        · cases hf
        · exact ⟨rfl, by rw [hr]⟩
      refine ⟨[.join 0 (io i), .cleanup], by simp, ?_⟩
      rw [finishLoads_bank_of_failed seq io ls (i + 1) _ hst.1, hst.2, List.foldl_cons, hstep,
        if_pos hf]
      simp [step]
    · rw [if_neg hf] at hstep
      have hst : (finishLoad cfg seq (io i) st l).ok = true ∧
          (finishLoad cfg seq (io i) st l).bank = (joinLoad cfg seq (io i) st.bank l).1 := by
        unfold finishLoad
        rw [if_pos hok]
        split <;> rename_i hr
        · exact ⟨hok, by rw [hr]⟩
        · exact ⟨hok, by rw [hr]⟩
        · exact absurd (by rw [hr]) hf
      obtain ⟨ops, hops, hrun⟩ := ih (g := step cfg sidecar g (.join 0 (io i))) (i + 1) _
        hst.1 (by rw [hstep, hst.2]; exact Graph.bank_setBank_self g il _) (by rw [hstep])
      refine ⟨.join 0 (io i) :: ops, ?_, ?_⟩
      · intro op hop
        rcases List.mem_cons.mp hop with rfl | hop
        · exact Or.inr ⟨io i, rfl⟩
        · exact hops op hop
      · rw [List.foldl_cons, hrun, hstep]
        exact congrArg (fun g' : Graph ρ => { g' with pending := none })
          (Graph.setBank_setBank g il _ _)

/-! ### A run that breaks coherence -/

/-- One layer, two experts, one slot that is read into directly. -/
def oneSlotConfig : Config where
  nLayer := 1
  nExpert := 2
  expertUsed := 1
  slotBank := 1
  l2SlotBank := 0
  gpuL2SlotBank := 0
  mixedSlotBank := true
  directMmapBank := false
  perExpertBuffers := false
  directSlotPread := true
  prefetchDirectSlotPread := true
  prefetchScratchOnly := false
  prefetchMaxLoads := 0
  preprotectTopk := true
  sixSlotBaseline := false

/-- Everything succeeds, except that the direct read ends as given. -/
def directReadIo (r : DirectRead Nat) : InstallIo Nat where
  promote := .ok
  l2StorePtr := true
  l2Upload := .ok
  direct := r
  scratchRead := true
  upload := .ok
  gpuL2Store := .ok
  markModified := true

/-- A run with a read that fails before it writes anything, and a second install that succeeds. -/
def harmlessRun : List (Op Nat) :=
  [.install 0 0 (fun _ => false) (directReadIo .ok),
    .install 0 1 (fun _ => false) (directReadIo (.noPtr true)),
    .install 0 1 (fun _ => false) (directReadIo .ok)]

/-- After the run slot 0 has the record of expert 1. -/
theorem resident_bytes_of_harmlessRun :
    ((harmlessRun.foldl (step oneSlotConfig fun _ e => e)
      (Graph.alloc oneSlotConfig (fun _ _ => 9) (fun _ _ => 9) fun _ _ => false)).layer 0).l1.bytes
        0 = 1 := by
  have hok : (directReadIo .ok).Succeeds := ⟨Or.inl rfl, rfl, rfl, rfl⟩
  have hnull : ∀ b : Bank Nat, b.l1.slotToExpert 0 = some 0 →
      InstallKeeps oneSlotConfig (fun e => e) (directReadIo (.noPtr true)) b 1 0 := by
    intro b hb
    refine ⟨?_, ?_, ?_, ?_, ?_⟩
    · intro t ht
      simp [Bank.promotable, oneSlotConfig] at ht
    · intro _ ht
      simp [Bank.promotable, oneSlotConfig] at ht
    · intro _ hz
      exact absurd rfl hz
    · intro _
      refine ⟨?_, ?_, ?_⟩
      · intro _ x errno hx
        cases hx
      · intro _ hx
        cases hx
      · intro _ x hx
        cases hx
    · intro src _ _ hz
      exact absurd rfl hz
  have hkeeps : Lib.Guarded (step oneSlotConfig fun _ e => e)
      (OpKeeps oneSlotConfig fun _ e => e)
      (Graph.alloc oneSlotConfig (fun _ _ => 9) (fun _ _ => 9) fun _ _ => false) harmlessRun := by
    refine ⟨fun s _ => hok.installKeeps (Or.inl rfl) _ _ s, ?_,
      fun s _ => hok.installKeeps (Or.inl rfl) _ _ s, trivial⟩
    intro s hs
    have hs0 : s = 0 := by
      have := (installVictim_spec hs).1
      simpa [oneSlotConfig] using this
    subst hs0
    exact hnull _ rfl
  exact (resident_bytes_of_keeps (fun _ _ => 9) (fun _ _ => 9) (fun _ _ => false)
    (fun h => by cases h) (fun h => by cases h) harmlessRun hkeeps 0 1 0).1
    (by rintro ⟨p, hp, -⟩; cases hp) ⟨rfl, rfl⟩

/-- **A failed install leaves wrong bytes.** Expert 0 is installed; the direct read of expert 1
    over its slot fails after some bytes and sets `errno`.  The tables still place expert 0 in
    slot 0, whose bytes are no longer its record. -/
theorem failed_install_leaves_wrong_bytes :
    let g := [Op.install 0 0 (fun _ => false) (directReadIo .ok),
        Op.install 0 1 (fun _ => false) (directReadIo (.fail 7 true))].foldl
      (step oneSlotConfig fun _ e => e)
      (Graph.alloc oneSlotConfig (fun _ _ => 9) (fun _ _ => 9) fun _ _ => false)
    g.pending.isNone = true ∧ (g.layer 0).l1.expertToSlot 0 = some 0 ∧
      (g.layer 0).l1.slotToExpert 0 = some 0 ∧ (g.layer 0).l1.bytes 0 ≠ 0 := by
  decide

end DS4.FlashMoe
