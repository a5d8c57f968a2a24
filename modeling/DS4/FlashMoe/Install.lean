import DS4.FlashMoe.Bank

namespace DS4.FlashMoe

/-!
# Flash-MoE — synchronous slot loads

The synchronous path brings an expert into a slot of its layer's bank:

* `install` — `metal_graph_flash_moe_install`: a hit refreshes the slot; a miss picks a victim
  and fills it from the GPU L2, the CPU L2, a direct read or the scratch buffer, in that order
  (`fillSlot`), and updates the tables last.
* `sixSlotLoad` — one position of the six-slot baseline: slot `k` always takes route `k`.
* `prepareDecode` — `metal_graph_flash_moe_prepare_decode`: all routed experts of a step.

What the outside world does in one call is an argument: `InstallIo` for a load, `PrepareIo` for
a step.
-/

variable {ρ : Type}

/-- The attempt to read a record straight into its slot.  Without a slot pointer nothing is
    read; a failed read leaves some bytes; either way `errno` decides whether the caller gives
    up or goes on to the scratch buffer. -/
inductive DirectRead (ρ : Type) where
  | noPtr (errno : Bool)
  | ok
  | fail (left : ρ) (errno : Bool)

/-- What the calls made by one synchronous load report. -/
structure InstallIo (ρ : Type) where
  /-- the GPU-L2 to L1 copy -/
  promote : Write ρ
  /-- does the L1 slot have a host pointer for the CPU L2 store? -/
  l2StorePtr : Bool
  /-- upload of the CPU L2 record -/
  l2Upload : Write ρ
  direct : DirectRead ρ
  /-- `flash_moe_pread_split` into `flash_install_buf` -/
  scratchRead : Bool
  /-- upload of `flash_install_buf` -/
  upload : Write ρ
  /-- the L1 to GPU-L2 copy -/
  gpuL2Store : Write ρ
  markModified : Bool

/-- Where the bytes of a filled slot came from. -/
inductive FillSource where
  | gpuL2
  | copied
  | direct
  deriving DecidableEq

namespace Bank

/-- Overwrite the bytes of an L1 slot. -/
def setSlot (b : Bank ρ) (slot : Nat) (x : ρ) : Bank ρ := { b with l1 := b.l1.setBytes slot x }

/-- Refresh an L1 slot that already holds the wanted expert. -/
def touch (b : Bank ρ) (slot : Nat) : Bank ρ :=
  { b with l1 := b.l1.setAge slot (b.flashAge + 1), flashAge := b.flashAge + 1 }

/-- `metal_graph_flash_moe_commit_decode_slot`. -/
def commitDecodeSlot (cfg : Config) (b : Bank ρ) (e slot : Nat) (evicted : Option Nat) :
    Bank ρ :=
  { b with
    l1 := b.l1.commit cfg.nExpert e slot evicted (b.flashAge + 1)
    flashAge := b.flashAge + 1 }

/-- `metal_graph_flash_moe_invalidate_decode_slot`. -/
def invalidateDecodeSlot (cfg : Config) (b : Bank ρ) (slot : Nat) : Bank ρ :=
  if slot < cfg.slotBank then { b with l1 := b.l1.invalidate cfg.nExpert slot } else b

/-- The direct-mapped and per-expert layouts: slot `e` is expert `e`. -/
def identitySlot (b : Bank ρ) (e : Nat) : Bank ρ :=
  { b with l1 := b.l1.record e e (b.flashAge + 1), flashAge := b.flashAge + 1 }

end Bank

/-- `metal_graph_flash_moe_l2_store_l1_slot` for the expert being evicted: the CPU L2 takes the
    bytes the L1 slot has now.  Only the mixed layout has a record to copy. -/
def l2StoreL1Slot (cfg : Config) (ptr : Bool) (b : Bank ρ) (evicted : Option Nat)
    (l1Slot : Nat) : Bank ρ :=
  match evicted with
  | some e =>
    if cfg.mixedSlotBank ∧ ptr ∧ e < cfg.nExpert then
      l2StoreRecord cfg b e (b.l1.bytes l1Slot)
    else b
  | none => b

/-! ### Filling a slot -/

/-- Read the record through `flash_install_buf` and upload it. -/
def fillFromScratch (sidecar : Nat → ρ) (io : InstallIo ρ) (b : Bank ρ) (e slot : Nat) :
    Bank ρ × Option FillSource :=
  if io.scratchRead then
    (b.setSlot slot (io.upload.result (sidecar e)),
      if io.upload.done then some .copied else none)
  else (b, none)

/-- The attempts that read the sidecar file: straight into the slot, else through the scratch
    buffer.  A direct read that fails with `errno` set ends the load. -/
def fillFromFile (cfg : Config) (sidecar : Nat → ρ) (io : InstallIo ρ) (b : Bank ρ)
    (e slot : Nat) : Bank ρ × Option FillSource :=
  if cfg.directSlotPread then
    match io.direct with
    | .ok              => (b.setSlot slot (sidecar e), some .direct)
    | .noPtr true      => (b, none)
    | .noPtr false     => fillFromScratch sidecar io b e slot
    | .fail left true  => (b.setSlot slot left, none)
    | .fail left false => fillFromScratch sidecar io (b.setSlot slot left) e slot
  else fillFromScratch sidecar io b e slot

/-- All attempts of an install, in the source's order: promote from the GPU L2, save the evicted
    record into the CPU L2, upload from the CPU L2, read the file.  `none` is `return false`. -/
def fillSlot (cfg : Config) (sidecar : Nat → ρ) (io : InstallIo ρ) (b : Bank ρ)
    (e slot : Nat) (evicted : Option Nat) : Bank ρ × Option FillSource :=
  let promoted := gpuL2PromoteToL1 cfg io.promote b e slot
  let b₂ := l2StoreL1Slot cfg io.l2StorePtr promoted.1 evicted slot
  if promoted.2 then (b₂, some .gpuL2)
  else
    let found := l2Lookup cfg b₂ e
    match found.2 with
    | some x =>
      let b₃ := found.1.setSlot slot (io.l2Upload.result x)
      if io.l2Upload.done then (b₃, some .copied) else fillFromFile cfg sidecar io b₃ e slot
    | none => fillFromFile cfg sidecar io found.1 e slot

/-! ### `metal_graph_flash_moe_install` -/

/-- The miss branch, with the victim `slot` already picked. -/
def installMiss (cfg : Config) (sidecar : Nat → ρ) (io : InstallIo ρ) (b : Bank ρ)
    (e slot : Nat) : Bank ρ × Option Nat :=
  let evicted := b.l1.slotToExpert slot
  let filled := fillSlot cfg sidecar io b e slot evicted
  match filled.2 with
  | none => (filled.1, none)
  | some src =>
    let b' := if src = .gpuL2 then filled.1
      else gpuL2StoreL1Slot cfg io.gpuL2Store filled.1 e slot
    if src = .direct ∧ io.markModified = false then (b', none)
    else
      ({ b' with
          l1 := (b'.l1.unmap cfg.nExpert evicted slot).record e slot (b'.flashAge + 1)
          flashAge := b'.flashAge + 1 },
        some slot)

/-- `metal_graph_flash_moe_install`. -/
def install (cfg : Config) (sidecar : Nat → ρ) (io : InstallIo ρ) (b : Bank ρ) (e : Nat)
    (protectedExperts : Nat → Bool) : Bank ρ × Option Nat :=
  if ¬ e < cfg.nExpert then (b, none)
  else if cfg.directMmapBank then
    if e < cfg.slotBank then (b.identitySlot e, some e) else (b, none)
  else if cfg.perExpertBuffers then
    if e < cfg.slotBank ∧ b.expertBank e then (b.identitySlot e, some e) else (b, none)
  else
    match b.l1.lookup cfg.slotBank e with
    | some slot => (b.touch slot, some slot)
    | none =>
      match pickSlot cfg b.l1 protectedExperts (fun _ => false) with
      | none      => (b, none)
      | some slot => installMiss cfg sidecar io b e slot

/-! ### `metal_graph_flash_moe_prepare_decode` -/

/-- Position `k` of the six-slot baseline: read expert `e` into slot `k`, whatever it held. -/
def sixSlotLoad (cfg : Config) (sidecar : Nat → ρ) (io : InstallIo ρ) (b : Bank ρ)
    (e k : Nat) : Bank ρ × Option Nat :=
  if ¬ e < cfg.nExpert then (b, none)
  else
    let evicted := b.l1.slotToExpert k
    let filled := fillFromFile cfg sidecar io b e k
    match filled.2 with
    | none => (filled.1, none)
    | some src =>
      if src = .direct ∧ io.markModified = false then (filled.1, none)
      else
        let b' : Bank ρ := { filled.1 with l1 := filled.1.l1.unmap cfg.nExpert evicted k }
        (b'.commitDecodeSlot cfg e k evicted, some k)

/-- What the calls of one synchronous preparation report: the GPU and router calls before the
    loads, the loads by position, the upload of the slot ids and the restart of the batch. -/
structure PrepareIo (ρ : Type) where
  ready : Bool
  load : Nat → InstallIo ρ
  selectedWrite : Bool
  restart : Bool

/-- The six-slot loop from position `k` on. -/
def sixSlotLoop (cfg : Config) (sidecar : Nat → ρ) (io : Nat → InstallIo ρ) :
    Nat → Bank ρ → List Nat → Bank ρ × Option (List Nat)
  | _, b, []      => (b, some [])
  | k, b, e :: es =>
    match sixSlotLoad cfg sidecar (io k) b e k with
    | (b', none)      => (b', none)
    | (b', some slot) =>
      match sixSlotLoop cfg sidecar io (k + 1) b' es with
      | (b'', none)       => (b'', none)
      | (b'', some slots) => (b'', some (slot :: slots))

/-- The install loop from position `k` on; every installed expert joins the protected set. -/
def installLoop (cfg : Config) (sidecar : Nat → ρ) (io : Nat → InstallIo ρ) :
    Nat → Bank ρ → (Nat → Bool) → List Nat → Bank ρ × Option (List Nat)
  | _, b, _, []      => (b, some [])
  | k, b, prot, e :: es =>
    match install cfg sidecar (io k) b e prot with
    | (b', none)      => (b', none)
    | (b', some slot) =>
      match installLoop cfg sidecar io (k + 1) b' (Function.update prot e true) es with
      | (b'', none)       => (b'', none)
      | (b'', some slots) => (b'', some (slot :: slots))

/-- `metal_graph_flash_moe_protect_routed_experts`, when `preprotect_topk` is on. -/
def protectRoutedExperts (cfg : Config) (ids : List Nat) : Nat → Bool :=
  fun e => cfg.preprotectTopk && decide (e < cfg.nExpert) && decide (e ∈ ids)

/-- `six_slot_baseline` of `metal_graph_flash_moe_prepare_decode`. -/
def Config.sixSlots (cfg : Config) : Bool :=
  cfg.sixSlotBaseline && !cfg.directMmapBank && !cfg.perExpertBuffers &&
    decide (cfg.expertUsed ≤ cfg.slotBank)

/-- `metal_graph_flash_moe_prepare_decode` on the routed experts `ids`: the bank it leaves and,
    if it returns true, the slot ids it wrote for the kernels. -/
def prepareDecode (cfg : Config) (sidecar : Nat → ρ) (io : PrepareIo ρ) (b : Bank ρ)
    (ids : List Nat) : Bank ρ × Option (List Nat) :=
  if io.ready = false then (b, none)
  else
    let loaded :=
      if cfg.directMmapBank then
        (b, if ∀ e ∈ ids, e < cfg.nExpert ∧ e < cfg.slotBank then some ids else none)
      else if cfg.sixSlots then sixSlotLoop cfg sidecar io.load 0 b ids
      else installLoop cfg sidecar io.load 0 b (protectRoutedExperts cfg ids) ids
    match loaded.2 with
    | none => (loaded.1, none)
    | some slots =>
      (loaded.1, if io.selectedWrite ∧ io.restart then some slots else none)

end DS4.FlashMoe
