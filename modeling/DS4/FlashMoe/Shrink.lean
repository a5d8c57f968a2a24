import DS4.FlashMoe.Bank
import DS4.Lib.TopK

namespace DS4.FlashMoe

/-!
# Flash-MoE — shrinking the slot banks after prefill

After prefill the slot bank of every layer is replaced by a smaller one.  The tables of all
layers live in three arrays of the graph, `slot_to_expert` and `slot_age` with one row of
`slot_bank` entries a layer and `expert_to_slot` with one row of `DS4_N_EXPERT`, and the rows are
compacted in place: row `il` moves from `il * from_slots` to `il * target_slots`, layer after
layer, and the slot count changes at the end.

* `selectHotSlots` — the residents of a row, most recently used first.
* `carryLayer`, `shrinkSlotBanksCarry` — the shrink that keeps the hottest records.
* `splitLayer`, `shrinkSlotBanksGpuL2` — the shrink that moves the next ones to the GPU L2.

Calls into the GPU layer are outcomes, one `ShrinkIo` a layer: any of them may fail.
-/

variable {ρ : Type}

/-- `DS4_MAX_EXPERT` -/
def MAX_EXPERT : Nat := 384

/-- The sizes both shrinks read, and the record of each expert of each layer in the sidecar. -/
structure ShrinkEnv (ρ : Type) where
  /-- `DS4_N_LAYER` -/
  nLayer : Nat
  /-- `DS4_N_EXPERT` -/
  nExpert : Nat
  expertStride : Nat → Nat
  record : Nat → Nat → ρ

/-- What the calls of one layer report: the allocation, preparation and views of the new banks,
    the contents of the old one, and each write; `fresh` is what a new bank holds before it. -/
structure ShrinkIo (ρ : Type) where
  alloc : Bool
  prepare : Bool
  views : Bool
  contents : Bool
  write : Nat → Bool
  fresh : Nat → ρ
  allocL2 : Bool
  prepareL2 : Bool
  writeL2 : Nat → Bool
  freshL2 : Nat → ρ

/-- A bank tensor: how many records it has room for, and the records. -/
structure SlotBytes (ρ : Type) where
  slots : Nat
  bytes : Nat → ρ

/-- The tables and banks of one cache level, for all layers. -/
structure FlatLevel (ρ : Type) where
  slotBank : Nat
  slotToExpert : Nat → Option Nat
  slotAge : Nat → UInt64
  expertToSlot : Nat → Option Nat
  mixedBank : Nat → Option (SlotBytes ρ)

/-- The part of the graph a shrink reads and writes. -/
structure SlotBanks (ρ : Type) where
  mixedSlotBank : Bool
  layerSlotSlab : Bool
  l1 : FlatLevel ρ
  gpuL2 : FlatLevel ρ

/-! ### The rows of a layer -/

namespace FlatLevel

/-- The level of layer `il`, when the rows have `stride` entries. -/
def layer (lv : FlatLevel ρ) (nExpert stride il : Nat) : Level (Option ρ) where
  slotToExpert := fun s => lv.slotToExpert (il * stride + s)
  expertToSlot := fun e => lv.expertToSlot (il * nExpert + e)
  slotAge := fun s => lv.slotAge (il * stride + s)
  bytes := fun s => (lv.mixedBank il).bind fun b => if s < b.slots then some (b.bytes s) else none

/-- No slot, no record: what `metal_graph_flash_moe_gpu_l2_free` leaves. -/
def empty : FlatLevel ρ where
  slotBank := 0
  slotToExpert := fun _ => none
  slotAge := fun _ => 0
  expertToSlot := fun _ => none
  mixedBank := fun _ => none

/-- The two loops that reset the rows of a layer. -/
def resetRows (lv : FlatLevel ρ) (nExpert stride il : Nat) : FlatLevel ρ :=
  { lv with
    slotToExpert := fun k =>
      if il * stride ≤ k ∧ k < il * stride + stride then none else lv.slotToExpert k
    slotAge := fun k =>
      if il * stride ≤ k ∧ k < il * stride + stride then 0 else lv.slotAge k
    expertToSlot := fun k =>
      if il * nExpert ≤ k ∧ k < il * nExpert + nExpert then none else lv.expertToSlot k }

/-- Record that `slot` of layer `il` holds `expert`. -/
def put (lv : FlatLevel ρ) (nExpert stride il slot expert : Nat) (age : UInt64) : FlatLevel ρ :=
  { lv with
    slotToExpert := Function.update lv.slotToExpert (il * stride + slot) (some expert)
    expertToSlot := Function.update lv.expertToSlot (il * nExpert + expert) (some slot)
    slotAge := Function.update lv.slotAge (il * stride + slot) age }

end FlatLevel

/-! ### Selecting what is kept -/

/-- `ds4_flash_moe_carry_slot` -/
structure CarrySlot where
  expert : Nat
  slot : Nat
  age : UInt64

/-- The slots of a row that hold an expert. -/
def residents (nExpert : Nat) (lv : Level (Option ρ)) (fromSlots : Nat) : List CarrySlot :=
  (List.range fromSlots).filterMap fun slot =>
    (lv.slotToExpert slot).bind fun e =>
      if e < nExpert then some ⟨e, slot, lv.slotAge slot⟩ else none

/-- `metal_graph_flash_moe_select_hot_slots`: the residents of the row, sorted by descending age
    into a buffer of `targetSlots` entries. -/
def selectHotSlots (nExpert : Nat) (lv : Level (Option ρ)) (fromSlots targetSlots : Nat) :
    List CarrySlot :=
  Lib.topK (fun c => c.age.toNat) targetSlots (residents nExpert lv fromSlots)

/-! ### Copying the records -/

/-- The loop that writes the selected records into a new bank, from slot `i` on.  The tables
    follow each write; a write that fails ends the call. -/
def carrySlots (nExpert stride il : Nat) (old : SlotBytes ρ) (write : Nat → Bool) :
    Nat → List CarrySlot → FlatLevel ρ → SlotBytes ρ → FlatLevel ρ × SlotBytes ρ × Bool
  | _, [], lv, new => (lv, new, true)
  | i, sel :: rest, lv, new =>
    if write i then
      carrySlots nExpert stride il old write (i + 1) rest
        (lv.put nExpert stride il i sel.expert sel.age)
        { new with bytes := Function.update new.bytes i (old.bytes sel.slot) }
    else (lv, new, false)

/-- The loop over the layers, from layer `il` on; the first failure ends the call. -/
def eachLayer (f : Nat → SlotBanks ρ → SlotBanks ρ × Bool) :
    Nat → Nat → SlotBanks ρ → SlotBanks ρ × Bool
  | _, 0, s => (s, true)
  | il, n + 1, s => if (f il s).2 then eachLayer f (il + 1) n (f il s).1 else f il s

/-- `layer->expert_stride == 0 || layer->expert_stride > UINT64_MAX / slots` -/
def strideRefused (stride slots : Nat) : Bool :=
  decide (stride = 0) || decide (UINT64_MAX.toNat / slots < stride)

/-- One layer of `metal_graph_flash_moe_shrink_slot_banks_carry`. -/
def carryLayer (env : ShrinkEnv ρ) (io : ShrinkIo ρ) (fromSlots targetSlots il : Nat)
    (s : SlotBanks ρ) : SlotBanks ρ × Bool :=
  match s.l1.mixedBank il with
  | none => (s, false)
  | some old =>
    if strideRefused (env.expertStride il) targetSlots then (s, false)
    else
      let selected :=
        selectHotSlots env.nExpert (s.l1.layer env.nExpert fromSlots il) fromSlots targetSlots
      if !io.alloc then (s, false)
      else if !io.prepare then (s, false)
      else if !io.views then (s, false)
      else if !io.contents && !selected.isEmpty then (s, false)
      else
        -- the rows are rewritten at the new stride before the bank is replaced
        let r := carrySlots env.nExpert targetSlots il old io.write 0 selected
          (s.l1.resetRows env.nExpert targetSlots il) ⟨targetSlots, io.fresh⟩
        if r.2.2 then
          ({ s with l1 :=
              { r.1 with mixedBank := Function.update r.1.mixedBank il (some r.2.1) } }, true)
        else ({ s with l1 := r.1 }, false)

/-- The checks both shrinks make before they touch a layer. -/
def SlotBanks.shrinkRefused (s : SlotBanks ρ) (fromSlots targetSlots : Nat) : Bool :=
  !s.mixedSlotBank || s.layerSlotSlab || decide (targetSlots = 0) ||
    decide (fromSlots ≤ targetSlots)

/-- `metal_graph_flash_moe_shrink_slot_banks_carry` -/
def shrinkSlotBanksCarry (env : ShrinkEnv ρ) (io : Nat → ShrinkIo ρ) (s : SlotBanks ρ)
    (fromSlots targetSlots : Nat) : SlotBanks ρ × Bool :=
  if s.shrinkRefused fromSlots targetSlots || decide (MAX_EXPERT < targetSlots) then (s, false)
  else
    let r := eachLayer (fun il => carryLayer env (io il) fromSlots targetSlots il) 0 env.nLayer s
    if r.2 then ({ r.1 with l1 := { r.1.l1 with slotBank := targetSlots } }, true) else r

/-! ### Splitting the bank -/

/-- `SIZE_MAX` -/
def SIZE_MAX : Nat := 0xFFFFFFFFFFFFFFFF

/-- The sizes of the three tables, in bytes, do not fit. -/
def mapsRefused (env : ShrinkEnv ρ) (slots : Nat) : Bool :=
  decide (SIZE_MAX / 4 < env.nLayer * slots) || decide (SIZE_MAX / 8 < env.nLayer * slots) ||
    decide (SIZE_MAX / 4 < env.nLayer * env.nExpert)

/-- `metal_graph_flash_moe_gpu_l2_init_maps`: the old GPU L2 goes first. -/
def gpuL2InitMaps (env : ShrinkEnv ρ) (s : SlotBanks ρ) (slots : Nat) : SlotBanks ρ × Bool :=
  if slots = 0 then (s, false)
  else if mapsRefused env slots then ({ s with gpuL2 := .empty }, false)
  else ({ s with gpuL2 := { FlatLevel.empty with slotBank := slots } }, true)

/-- One layer of `metal_graph_flash_moe_shrink_slot_banks_gpu_l2`. -/
def splitLayer (env : ShrinkEnv ρ) (io : ShrinkIo ρ) (fromSlots targetSlots il : Nat)
    (s : SlotBanks ρ) : SlotBanks ρ × Bool :=
  let l2Slots := fromSlots - targetSlots
  match s.l1.mixedBank il with
  | none => (s, false)
  | some old =>
    if strideRefused (env.expertStride il) targetSlots ||
        strideRefused (env.expertStride il) l2Slots then (s, false)
    else if !io.alloc || !io.allocL2 then (s, false)
    else if !io.prepare then (s, false)
    else if !io.prepareL2 then (s, false)
    else if !io.views then (s, false)
    else
      let selected :=
        selectHotSlots env.nExpert (s.l1.layer env.nExpert fromSlots il) fromSlots fromSlots
      if !io.contents && !selected.isEmpty then (s, false)
      else
        let r := carrySlots env.nExpert targetSlots il old io.write 0 (selected.take targetSlots)
          (s.l1.resetRows env.nExpert targetSlots il) ⟨targetSlots, io.fresh⟩
        if !r.2.2 then ({ s with l1 := r.1 }, false)
        else
          let r₂ := carrySlots env.nExpert s.gpuL2.slotBank il old io.writeL2 0
            ((selected.drop targetSlots).take l2Slots) s.gpuL2 ⟨l2Slots, io.freshL2⟩
          if !r₂.2.2 then ({ s with l1 := r.1, gpuL2 := r₂.1 }, false)
          else
            ({ s with
              l1 := { r.1 with mixedBank := Function.update r.1.mixedBank il (some r.2.1) }
              gpuL2 :=
                { r₂.1 with mixedBank := Function.update r₂.1.mixedBank il (some r₂.2.1) } },
              true)

/-- `metal_graph_flash_moe_shrink_slot_banks_gpu_l2` -/
def shrinkSlotBanksGpuL2 (env : ShrinkEnv ρ) (io : Nat → ShrinkIo ρ) (s : SlotBanks ρ)
    (fromSlots targetSlots : Nat) : SlotBanks ρ × Bool :=
  if s.shrinkRefused fromSlots targetSlots then (s, false)
  else
    let m := gpuL2InitMaps env s (fromSlots - targetSlots)
    if !m.2 then m
    else
      let r := eachLayer (fun il => splitLayer env (io il) fromSlots targetSlots il) 0
        env.nLayer m.1
      if r.2 then ({ r.1 with l1 := { r.1.l1 with slotBank := targetSlots } }, true) else r

end DS4.FlashMoe
