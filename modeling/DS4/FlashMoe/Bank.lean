import Mathlib.Logic.Function.Basic
import Mathlib.Data.List.Basic

namespace DS4.FlashMoe

/-!
# Flash-MoE — the slot bank of one layer

Every routed layer owns a bank of expert slots.  Three tables describe it: `slot_to_expert`,
`expert_to_slot` and `slot_age`; the slot bytes live next to them.  The same four arrays exist
again for the CPU-backed L2 and for the GPU L2, so a cache level is one structure, `Level`,
used three times in `Layer`; a `Bank` is a layer together with the LRU clock of the graph.

* `Level.lookup` — the test every reader of the tables makes before it trusts a slot.
* `pickSlot` / `l2PickSlot` — the eviction policies, over the shared LRU pass `lruScan`.
* `Level.commit`, `Level.invalidate` — the two table updates.
* `l2StoreRecord`, `gpuL2StoreL1Slot`, `gpuL2PromoteToL1` — the moves between levels.

A table entry of `-1` is `none`.  A record is an element of `ρ`; the sidecar of a layer maps an
expert to its record.  A call that writes a record into a destination returns a `Write`: it
succeeds, or it fails and leaves some record-sized bytes behind.
-/

variable {ρ β : Type}

/-- `UINT64_MAX`, the age no LRU pass ever selects. -/
def UINT64_MAX : UInt64 := 0xFFFFFFFFFFFFFFFF

/-- The settings and sizes the slot functions read; constant between two resizings of the
    banks. -/
structure Config where
  /-- `DS4_N_LAYER` -/
  nLayer : Nat
  /-- `DS4_N_EXPERT` -/
  nExpert : Nat
  /-- `DS4_N_EXPERT_ACTIVE_USED` -/
  expertUsed : Nat
  slotBank : Nat
  l2SlotBank : Nat
  gpuL2SlotBank : Nat
  mixedSlotBank : Bool
  directMmapBank : Bool
  perExpertBuffers : Bool
  directSlotPread : Bool
  prefetchDirectSlotPread : Bool
  prefetchScratchOnly : Bool
  prefetchMaxLoads : Nat
  preprotectTopk : Bool
  sixSlotBaseline : Bool

/-- One cache level of one layer: its tables and the bytes of its slots. -/
structure Level (β : Type) where
  slotToExpert : Nat → Option Nat
  expertToSlot : Nat → Option Nat
  slotAge : Nat → UInt64
  bytes : Nat → β

/-- The three cache levels of a layer.  A CPU L2 slot has no bytes before its first store;
    `expertBank e` says whether the per-expert buffer of `e` exists. -/
structure Layer (ρ : Type) where
  l1 : Level ρ
  l2 : Level (Option ρ)
  gpuL2 : Level ρ
  expertBank : Nat → Bool

/-- What a slot function of one layer reads and writes: the layer and `g->flash_age`. -/
structure Bank (ρ : Type) extends Layer ρ where
  flashAge : UInt64

/-- What a call that writes a whole record reports, and what it leaves behind if it fails. -/
inductive Write (ρ : Type) where
  | ok
  | fail (left : ρ)

/-- Did the call succeed? -/
def Write.done : Write ρ → Bool
  | .ok     => true
  | .fail _ => false

/-- The destination after the call, when `src` was to be written. -/
def Write.result (src : ρ) : Write ρ → ρ
  | .ok     => src
  | .fail x => x

@[simp] theorem Write.done_ok : (Write.ok : Write ρ).done = true := rfl
@[simp] theorem Write.done_fail (x : ρ) : (Write.fail x).done = false := rfl
@[simp] theorem Write.result_ok (src : ρ) : Write.result src .ok = src := rfl
@[simp] theorem Write.result_fail (src x : ρ) : Write.result src (.fail x) = x := rfl

/-! ### Tables -/

namespace Level

/-- `expert_to_slot[e]` is a slot of the bank and `slot_to_expert` of it is `e` again. -/
def lookup (lv : Level β) (bank e : Nat) : Option Nat :=
  match lv.expertToSlot e with
  | some s => if s < bank ∧ lv.slotToExpert s = some e then some s else none
  | none   => none

/-- Overwrite the bytes of a slot, tables untouched. -/
def setBytes (lv : Level β) (slot : Nat) (x : β) : Level β :=
  { lv with bytes := Function.update lv.bytes slot x }

/-- Refresh the age of a slot. -/
def setAge (lv : Level β) (slot : Nat) (age : UInt64) : Level β :=
  { lv with slotAge := Function.update lv.slotAge slot age }

/-- `if (expert valid && expert_to_slot[expert] == slot) expert_to_slot[expert] = -1`. -/
def unmap (lv : Level β) (nExpert : Nat) (expert : Option Nat) (slot : Nat) : Level β :=
  match expert with
  | some e =>
    if e < nExpert ∧ lv.expertToSlot e = some slot then
      { lv with expertToSlot := Function.update lv.expertToSlot e none }
    else lv
  | none => lv

/-- Record that `slot` now holds `e`. -/
def record (lv : Level β) (e slot : Nat) (age : UInt64) : Level β :=
  { lv with
    slotToExpert := Function.update lv.slotToExpert slot (some e)
    expertToSlot := Function.update lv.expertToSlot e (some slot)
    slotAge := Function.update lv.slotAge slot age }

/-- The table part of `metal_graph_flash_moe_commit_decode_slot`: unmap the expert noted as
    evicted, unmap whoever else is resident, record the new expert. -/
def commit (lv : Level β) (nExpert e slot : Nat) (evicted : Option Nat) (age : UInt64) :
    Level β :=
  let lv₁ := lv.unmap nExpert evicted slot
  let resident := lv₁.slotToExpert slot
  let lv₂ := if resident ≠ evicted ∧ resident ≠ some e then lv₁.unmap nExpert resident slot
    else lv₁
  lv₂.record e slot age

/-- The table part of `metal_graph_flash_moe_invalidate_decode_slot`. -/
def invalidate (lv : Level β) (nExpert slot : Nat) : Level β :=
  let lv₁ := lv.unmap nExpert (lv.slotToExpert slot) slot
  { lv₁ with
    slotToExpert := Function.update lv₁.slotToExpert slot none
    slotAge := Function.update lv₁.slotAge slot 0 }

/-- The table part of `metal_graph_flash_moe_reset_slot_cache` for one layer. -/
def reset (lv : Level β) : Level β :=
  { lv with slotToExpert := fun _ => none, expertToSlot := fun _ => none, slotAge := fun _ => 0 }

end Level

/-! ### Eviction policies -/

/-- One LRU pass: the first slot of least age among the allowed ones whose age is below
    `UINT64_MAX`. -/
def lruScan (n : Nat) (allowed : Nat → Bool) (age : Nat → UInt64) : Option Nat :=
  ((List.range n).foldl
    (fun acc i => if allowed i && decide (age i < acc.1) then (age i, some i) else acc)
    (UINT64_MAX, none)).2

/-- Does slot `i` hold a protected expert? -/
def Level.guarded (cfg : Config) (lv : Level β) (protectedExperts : Nat → Bool) (i : Nat) :
    Bool :=
  match lv.slotToExpert i with
  | some e => decide (e < cfg.nExpert) && protectedExperts e
  | none   => false

/-- `metal_graph_flash_moe_pick_slot`: an empty slot that is not reserved; else the LRU slot
    neither reserved nor holding a protected expert; else the LRU slot not reserved.  `none`
    is `UINT32_MAX`. -/
def pickSlot (cfg : Config) (lv : Level β) (protectedExperts reservedSlots : Nat → Bool) :
    Option Nat :=
  match (List.range cfg.slotBank).find?
      (fun i => !reservedSlots i && (lv.slotToExpert i).isNone) with
  | some i => some i
  | none =>
    match lruScan cfg.slotBank
        (fun i => !reservedSlots i && !lv.guarded cfg protectedExperts i) lv.slotAge with
    | some i => some i
    | none   => lruScan cfg.slotBank (fun i => !reservedSlots i) lv.slotAge

/-- `metal_graph_flash_moe_l2_pick_slot` and `metal_graph_flash_moe_gpu_l2_pick_slot`: an empty
    slot, else the LRU slot, else slot 0. -/
def l2PickSlot (bank : Nat) (lv : Level β) : Nat :=
  match (List.range bank).find? (fun i => (lv.slotToExpert i).isNone) with
  | some i => i
  | none   => (lruScan bank (fun _ => true) lv.slotAge).getD 0

/-! ### Moves between the levels -/

/-- The L2 slot a record of `e` goes to: the one that has it, else a victim. -/
def Level.storeSlot (bank : Nat) (lv : Level β) (e : Nat) : Nat :=
  (lv.lookup bank e).getD (l2PickSlot bank lv)

/-- `metal_graph_flash_moe_l2_store_record`: put `src` as the record of `e` into the CPU L2. -/
def l2StoreRecord (cfg : Config) (b : Bank ρ) (e : Nat) (src : ρ) : Bank ρ :=
  if cfg.l2SlotBank = 0 ∨ ¬ e < cfg.nExpert then b
  else
    let slot := b.l2.storeSlot cfg.l2SlotBank e
    let evicted := b.l2.slotToExpert slot
    let lv := if evicted ≠ some e then b.l2.unmap cfg.nExpert evicted slot else b.l2
    { b with
      l2 := (lv.setBytes slot (some src)).record e slot (b.flashAge + 1)
      flashAge := b.flashAge + 1 }

/-- `metal_graph_flash_moe_l2_lookup`: the CPU L2 record of `e`, refreshing its age. -/
def l2Lookup (cfg : Config) (b : Bank ρ) (e : Nat) : Bank ρ × Option ρ :=
  if cfg.l2SlotBank = 0 ∨ ¬ e < cfg.nExpert then (b, none)
  else
    match b.l2.lookup cfg.l2SlotBank e with
    | none => (b, none)
    | some slot =>
      match b.l2.bytes slot with
      | none => (b, none)
      | some x =>
        ({ b with l2 := b.l2.setAge slot (b.flashAge + 1), flashAge := b.flashAge + 1 }, some x)

/-- `metal_graph_flash_moe_gpu_l2_store_l1_slot`: copy an L1 slot into the GPU L2 as the record
    of `e`.  The copy comes first; a failed copy returns before the tables change. -/
def gpuL2StoreL1Slot (cfg : Config) (copy : Write ρ) (b : Bank ρ) (e l1Slot : Nat) : Bank ρ :=
  if cfg.gpuL2SlotBank = 0 ∨ ¬ e < cfg.nExpert ∨ ¬ l1Slot < cfg.slotBank then b
  else
    let slot := b.gpuL2.storeSlot cfg.gpuL2SlotBank e
    let evicted := b.gpuL2.slotToExpert slot
    let lv := b.gpuL2.setBytes slot (copy.result (b.l1.bytes l1Slot))
    if copy.done then
      let lv' := if evicted ≠ some e then lv.unmap cfg.nExpert evicted slot else lv
      { b with gpuL2 := lv'.record e slot (b.flashAge + 1), flashAge := b.flashAge + 1 }
    else { b with gpuL2 := lv }

/-- `metal_graph_flash_moe_gpu_l2_promote_to_l1`: copy the GPU L2 record of `e` into an L1 slot,
    L1 tables untouched. -/
def gpuL2PromoteToL1 (cfg : Config) (copy : Write ρ) (b : Bank ρ) (e l1Slot : Nat) :
    Bank ρ × Bool :=
  if cfg.gpuL2SlotBank = 0 ∨ ¬ e < cfg.nExpert ∨ ¬ l1Slot < cfg.slotBank then (b, false)
  else
    match b.gpuL2.lookup cfg.gpuL2SlotBank e with
    | none => (b, false)
    | some slot =>
      let b' := { b with l1 := b.l1.setBytes l1Slot (copy.result (b.gpuL2.bytes slot)) }
      if copy.done then
        ({ b' with gpuL2 := b'.gpuL2.setAge slot (b.flashAge + 1), flashAge := b.flashAge + 1 },
          true)
      else (b', false)

end DS4.FlashMoe
