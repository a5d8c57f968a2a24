import DS4.FlashMoe.Install

namespace DS4.FlashMoe

/-!
# Flash-MoE — decode prefetch and async handout

The asynchronous paths split a load in two: a slot is reserved and its read started, and later
the read is joined and its record committed.

* `reserveDecodeSlot` — find the slot of an expert or a victim outside the reserved slots.
* `prepareDecodePrefetchIds` / `decodePrefetchFinish` — the two halves of a prefetched step.
* `asyncRoutes`, `asyncStartLoads`, `joinLoad` — the async handout.
* `uploadDecodeSlot`, `prefetchSlotFromBuf` — uploads from a host buffer; a failed upload
  invalidates the slot.

A read started here runs on another thread.  Its destination is written from the start on, and
nothing reads it before the join, so the model writes the final bytes when the read starts.
-/

variable {ρ : Type}

/-! ### `metal_graph_flash_moe_reserve_decode_slot` -/

/-- What a successful reservation reports. -/
structure Reserved where
  slot : Nat
  evicted : Option Nat
  miss : Bool

/-- `metal_graph_flash_moe_reserve_decode_slot`. -/
def reserveDecodeSlot (cfg : Config) (b : Bank ρ) (e : Nat)
    (protectedExperts reservedSlots : Nat → Bool) : Bank ρ × Option Reserved :=
  if ¬ e < cfg.nExpert then (b, none)
  else if cfg.directMmapBank then
    if e < cfg.slotBank ∧ reservedSlots e = false then
      (b.identitySlot e, some ⟨e, none, false⟩)
    else (b, none)
  else if cfg.perExpertBuffers then
    if e < cfg.slotBank ∧ b.expertBank e ∧ reservedSlots e = false then
      (b.identitySlot e, some ⟨e, none, false⟩)
    else (b, none)
  else
    match (b.l1.lookup cfg.slotBank e).filter (fun s => !reservedSlots s) with
    | some slot => (b.touch slot, some ⟨slot, none, false⟩)
    | none =>
      match pickSlot cfg b.l1 protectedExperts reservedSlots with
      | none      => (b, none)
      | some slot => (b, some ⟨slot, b.l1.slotToExpert slot, true⟩)

/-! ### Uploads from a host buffer -/

/-- What the calls made when a load is joined report. -/
structure LoadIo (ρ : Type) where
  markModified : Bool
  upload : Write ρ
  gpuL2Store : Write ρ

/-- `metal_graph_flash_moe_upload_decode_slot`. -/
def uploadDecodeSlot (cfg : Config) (io : LoadIo ρ) (b : Bank ρ) (e slot : Nat)
    (evicted : Option Nat) (src : ρ) : Bank ρ × Bool :=
  if e < cfg.nExpert ∧ slot < cfg.slotBank then
    let b' := b.setSlot slot (io.upload.result src)
    if io.upload.done then
      ((gpuL2StoreL1Slot cfg io.gpuL2Store b' e slot).commitDecodeSlot cfg e slot evicted, true)
    else (b'.invalidateDecodeSlot cfg slot, false)
  else (b, false)

/-- `metal_graph_flash_moe_upload_prefill_slot`: the same without the GPU L2 copy. -/
def uploadPrefillSlot (cfg : Config) (upload : Write ρ) (b : Bank ρ) (e slot : Nat)
    (evicted : Option Nat) (src : ρ) : Bank ρ × Bool :=
  if e < cfg.nExpert ∧ slot < cfg.slotBank then
    let b' := b.setSlot slot (upload.result src)
    if upload.done then (b'.commitDecodeSlot cfg e slot evicted, true)
    else (b'.invalidateDecodeSlot cfg slot, false)
  else (b, false)

/-- `metal_graph_flash_moe_prefetch_slot_from_buf`: prefill seeds a slot with the record it has
    just staged. -/
def prefetchSlotFromBuf (cfg : Config) (sidecar : Nat → ρ) (upload : Write ρ) (b : Bank ρ)
    (e : Nat) : Bank ρ × Bool :=
  match reserveDecodeSlot cfg b e (fun _ => false) (fun _ => false) with
  | (b', none)   => (b', false)
  | (b', some r) =>
    if r.miss then uploadPrefillSlot cfg upload b' e r.slot r.evicted (sidecar e) else (b', true)

/-! ### Loads in flight -/

/-- A `ds4_flash_decode_read_job` once its thread is done: `data` is what the read left in its
    destination.  A job that is not complete has `err` set. -/
structure ReadJob (ρ : Type) where
  /-- `direct_record || direct_slot` -/
  direct : Bool
  data : ρ
  complete : Bool

/-- A load of a decode step: `load_expert`, `load_slot`, `load_evicted` and its job. -/
structure Load (ρ : Type) where
  expert : Nat
  slot : Nat
  evicted : Option Nat
  job : ReadJob ρ

/-- How the join of one load ends. -/
inductive JoinResult where
  | stored
  /-- a sequential scratch read that did not finish: the step is prepared again -/
  | skipped
  | failed
  deriving DecidableEq

/-- Join one load and commit its record: one iteration of
    `metal_graph_flash_moe_decode_prefetch_finish`, and (never sequential)
    `metal_graph_flash_moe_async_load_join_upload`. -/
def joinLoad (cfg : Config) (sequentialScratch : Bool) (io : LoadIo ρ) (b : Bank ρ)
    (l : Load ρ) : Bank ρ × JoinResult :=
  if l.job.complete = false then (b, if sequentialScratch then .skipped else .failed)
  else if l.job.direct then
    if io.markModified then
      ((gpuL2StoreL1Slot cfg io.gpuL2Store b l.expert l.slot).commitDecodeSlot cfg l.expert
        l.slot l.evicted, .stored)
    else (b, .failed)
  else
    match uploadDecodeSlot cfg io b l.expert l.slot l.evicted l.job.data with
    | (b', ok) => (b', if ok then .stored else .failed)

/-! ### `metal_graph_flash_moe_prepare_decode_prefetch_ids` -/

/-- The locals of the routing loops of a decode step.  `routes` lists `true_ids[k]` and
    `slot_ids[k]` for the positions handled so far. -/
structure Routing (ρ : Type) where
  bank : Bank ρ
  protectedExperts : Nat → Bool
  reservedSlots : Nat → Bool
  routes : List (Nat × Nat)
  loads : List (Load ρ)
  needsSyncPrepare : Bool

namespace Routing

/-- The locals before the first position. -/
def init (cfg : Config) (b : Bank ρ) (ids : List Nat) : Routing ρ :=
  ⟨b, protectRoutedExperts cfg ids, fun _ => false, [], [], false⟩

/-- The slot an earlier position with the same expert got. -/
def slotOf (st : Routing ρ) (e : Nat) : Option Nat :=
  (st.routes.find? (fun r => r.1 == e)).map Prod.snd

/-- `slot_ids[k] = slot`, reserve the slot, protect the expert. -/
def assign (st : Routing ρ) (e slot : Nat) : Routing ρ :=
  { st with
    reservedSlots := Function.update st.reservedSlots slot true
    protectedExperts := Function.update st.protectedExperts e true
    routes := st.routes ++ [(e, slot)] }

end Routing

/-- What happens while the loads of a prefetch are set up, by load index. -/
structure PrefetchIo (ρ : Type) where
  /-- does the L1 slot have a host pointer? -/
  slotPtr : Nat → Bool
  scratchReady : Nat → Bool
  read : Nat → Write ρ
  selectedWrite : Bool

/-- `flash_moe_decode_prefetch_direct_slot_pread_enabled`. -/
def Config.prefetchDirect (cfg : Config) : Bool :=
  !cfg.prefetchScratchOnly && cfg.prefetchDirectSlotPread

/-- Set up the load of a missing expert: its source is the CPU L2 record if there is one, its
    destination the slot, the scratch pool or a buffer of its own.  The sequential worker reads
    the file only. -/
def startPrefetchLoad (cfg : Config) (sidecar : Nat → ρ) (io : PrefetchIo ρ) (st : Routing ρ)
    (e : Nat) (r : Reserved) : Routing ρ × Bool :=
  let li := st.loads.length
  let found := l2Lookup cfg st.bank e
  let direct := cfg.prefetchDirect && io.slotPtr li
  if direct = false ∧ cfg.prefetchScratchOnly ∧ io.scratchReady li = false then
    ({ st with bank := found.1 }, false)
  else
    let src := if cfg.prefetchScratchOnly then sidecar e else found.2.getD (sidecar e)
    let data := (io.read li).result src
    ({ st with
        bank := if direct then found.1.setSlot r.slot data else found.1
        loads := st.loads ++ [⟨e, r.slot, r.evicted, ⟨direct, data, (io.read li).done⟩⟩] },
      true)

/-- The routing loop of `metal_graph_flash_moe_prepare_decode_prefetch_ids` over the positions
    that are left. -/
def prefetchLoop (cfg : Config) (sidecar : Nat → ρ) (io : PrefetchIo ρ) :
    Routing ρ → List Nat → Routing ρ × Bool
  | st, []      => (st, true)
  | st, e :: es =>
    match st.slotOf e with
    | some slot => prefetchLoop cfg sidecar io (st.assign e slot) es
    | none =>
      match reserveDecodeSlot cfg st.bank e st.protectedExperts st.reservedSlots with
      | (b, none)   => ({ st with bank := b }, false)
      | (b, some r) =>
        let st₁ : Routing ρ := { st with bank := b }
        if r.miss = false then prefetchLoop cfg sidecar io (st₁.assign e r.slot) es
        else if cfg.prefetchMaxLoads ≤ st.loads.length then
          ({ st₁ with needsSyncPrepare := true }, true)
        else if cfg.expertUsed ≤ st.loads.length then (st₁.assign e r.slot, false)
        else
          let started := startPrefetchLoad cfg sidecar io (st₁.assign e r.slot) e r
          if started.2 = false then started
          else if cfg.prefetchMaxLoads ≤ started.1.loads.length ∧ es ≠ [] then
            ({ started.1 with needsSyncPrepare := true }, true)
          else prefetchLoop cfg sidecar io started.1 es

/-- The loop and the upload of the slot ids; on failure the caller joins what was started and
    forgets it. -/
def prefetchRoutes (cfg : Config) (sidecar : Nat → ρ) (io : PrefetchIo ρ) (b : Bank ρ)
    (ids : List Nat) : Routing ρ × Bool :=
  let out := prefetchLoop cfg sidecar io (Routing.init cfg b ids) ids
  (out.1, out.2 && (out.1.needsSyncPrepare || io.selectedWrite))

/-- A prepared `ds4_flash_decode_prefetch`. -/
structure Prefetch (ρ : Type) where
  needsSyncPrepare : Bool
  sequentialScratch : Bool
  slotIds : List Nat
  loads : List (Load ρ)

/-- `metal_graph_flash_moe_prepare_decode_prefetch_ids`. -/
def prepareDecodePrefetchIds (cfg : Config) (sidecar : Nat → ρ) (io : PrefetchIo ρ)
    (b : Bank ρ) (ids : List Nat) : Bank ρ × Option (Prefetch ρ) :=
  match prefetchRoutes cfg sidecar io b ids with
  | (st, false) => (st.bank, none)
  | (st, true)  =>
    (st.bank, some ⟨st.needsSyncPrepare, cfg.prefetchScratchOnly, st.routes.map Prod.snd,
      st.loads⟩)

/-! ### `metal_graph_flash_moe_decode_prefetch_finish` -/

/-- The state the finish loop carries: the bank, `ok` and `needs_sync_prepare`. -/
structure Finish (ρ : Type) where
  bank : Bank ρ
  ok : Bool
  needsSyncPrepare : Bool

/-- One iteration: after a failure the remaining loads are only released. -/
def finishLoad (cfg : Config) (sequentialScratch : Bool) (io : LoadIo ρ) (st : Finish ρ)
    (l : Load ρ) : Finish ρ :=
  if st.ok then
    match joinLoad cfg sequentialScratch io st.bank l with
    | (b, .stored)  => { st with bank := b }
    | (b, .skipped) => { st with bank := b, needsSyncPrepare := true }
    | (b, .failed)  => { st with bank := b, ok := false }
  else
    { st with needsSyncPrepare :=
        st.needsSyncPrepare || sequentialScratch && !l.job.complete }

/-- The loop from load `i` on. -/
def finishLoads (cfg : Config) (sequentialScratch : Bool) (io : Nat → LoadIo ρ) :
    Nat → Finish ρ → List (Load ρ) → Finish ρ
  | _, st, []      => st
  | i, st, l :: ls =>
    finishLoads cfg sequentialScratch io (i + 1) (finishLoad cfg sequentialScratch (io i) st l) ls

/-- `metal_graph_flash_moe_decode_prefetch_finish`. -/
def decodePrefetchFinish (cfg : Config) (io : Nat → LoadIo ρ) (b : Bank ρ) (pf : Prefetch ρ) :
    Finish ρ :=
  finishLoads cfg pf.sequentialScratch io 0 ⟨b, true, pf.needsSyncPrepare⟩ pf.loads

/-! ### Async handout -/

/-- The routing loop of `metal_graph_flash_moe_decode_async_handout`: no read is started, the
    misses are only noted. -/
def asyncRoutes (cfg : Config) : Routing ρ → List Nat → List (Nat × Reserved) →
    Routing ρ × Option (List (Nat × Reserved))
  | st, [], misses      => (st, some misses)
  | st, e :: es, misses =>
    match st.slotOf e with
    | some slot => asyncRoutes cfg { st with routes := st.routes ++ [(e, slot)] } es misses
    | none =>
      match reserveDecodeSlot cfg st.bank e st.protectedExperts st.reservedSlots with
      | (b, none)   => ({ st with bank := b }, none)
      | (b, some r) =>
        let st₁ := ({ st with bank := b } : Routing ρ).assign e r.slot
        if r.miss = false then asyncRoutes cfg st₁ es misses
        else if cfg.expertUsed ≤ misses.length then (st₁, none)
        else asyncRoutes cfg st₁ es (misses ++ [(e, r)])

/-- What happens while the loads of an async handout are started. -/
structure AsyncIo (ρ : Type) where
  /-- the calls before the loads start -/
  ready : Bool
  /-- `!split_requested` -/
  directSlotReads : Bool
  slotPtr : Nat → Bool
  scratchReady : Bool
  read : Nat → Write ρ

/-- Does load `li` of the handout read straight into its slot? -/
def AsyncIo.direct (cfg : Config) (io : AsyncIo ρ) (li : Nat) : Bool :=
  io.directSlotReads && cfg.directSlotPread && io.slotPtr li

/-- Start the reads of `metal_graph_flash_moe_async_start_loads` from load `li` on. -/
def asyncStart (cfg : Config) (sidecar : Nat → ρ) (io : AsyncIo ρ) :
    Nat → Bank ρ → List (Nat × Reserved) → Bank ρ × List (Load ρ)
  | _, b, []                => (b, [])
  | li, b, (e, r) :: misses =>
    let data := (io.read li).result (sidecar e)
    let direct := io.direct cfg li
    let b' := if direct then b.setSlot r.slot data else b
    let rest := asyncStart cfg sidecar io (li + 1) b' misses
    (rest.1, ⟨e, r.slot, r.evicted, ⟨direct, data, (io.read li).done⟩⟩ :: rest.2)

/-- `metal_graph_flash_moe_async_start_loads`: without the scratch a load needs, no read is
    started. -/
def asyncStartLoads (cfg : Config) (sidecar : Nat → ρ) (io : AsyncIo ρ) (b : Bank ρ)
    (misses : List (Nat × Reserved)) : Bank ρ × Option (List (Load ρ)) :=
  if (∃ li < misses.length, io.direct cfg li = false) ∧ io.scratchReady = false then (b, none)
  else
    let started := asyncStart cfg sidecar io 0 b misses
    (started.1, some started.2)

/-- `metal_graph_flash_moe_decode_async_handout` up to the joins: the loads it has in flight,
    if it gets that far. -/
def asyncHandout (cfg : Config) (sidecar : Nat → ρ) (io : AsyncIo ρ) (b : Bank ρ)
    (ids : List Nat) : Bank ρ × Option (List (Load ρ)) :=
  match asyncRoutes cfg (Routing.init cfg b ids) ids [] with
  | (st, none)        => (st.bank, none)
  | (st, some misses) =>
    if io.ready then asyncStartLoads cfg sidecar io st.bank misses else (st.bank, none)

end DS4.FlashMoe
