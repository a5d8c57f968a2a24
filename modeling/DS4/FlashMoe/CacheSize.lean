import DS4.Checkpoint.Format
import DS4.FlashMoe.Manifest
import DS4.Lib.Bisect
import DS4.Lib.Checked
import Mathlib.Algebra.Order.BigOperators.Group.List
import Mathlib.Algebra.Order.Group.Nat

namespace DS4.FlashMoe

/-!
# Flash-MoE — how many slots the expert cache gets

`--ssd-cache` gives the slot banks a budget in bytes, or has one computed from the free memory.  The bank gets as
many slots as fit.

* `bankBytesForSlots` — the size of the banks in 64 bits, and `bankBytes` — the size they really have.
* `contextMemoryEstimate` — what the context takes; it is small enough for the sums of the budget.
* `ssdCacheBudget` — the budget, and `resolveSsdCacheSlots` — the search.
* `ssd_cache_slots_optimal` — the most slots that fit, and what stays free.
-/

open DS4.Lib (Exact bisect bisect_spec checkedMul checkedAdd checkedAlign checkedMul_exact checkedAdd_exact
  checkedAlign_exact roundUp le_roundUp roundUp_mono)

/-! ### The experts in use -/

/-- `DS4_N_EXPERT_USED` -/
def Variant.nExpertUsed : Variant → Nat
  | .flash => 6
  | .pro   => 6

/-- `ds4_active_expert_used`: `requested` is the number in the environment variable, where there is one. -/
def activeExpertUsed (v : Variant) (requested : Option Int) : Nat :=
  match requested with
  | none => v.nExpertUsed
  | some r =>
    if r ≤ 0 then v.nExpertUsed
    else if v.nExpertUsed < (r % 0x100000000).toNat then v.nExpertUsed
    else (r % 0x100000000).toNat

theorem activeExpertUsed_le (v : Variant) (requested : Option Int) :
    activeExpertUsed v requested ≤ v.nExpertUsed := by
  unfold activeExpertUsed
  split
  · exact Nat.le_refl _
  · split_ifs <;> omega

theorem nExpertUsed_le (v : Variant) : v.nExpertUsed ≤ v.nExpert := by
  cases v <;> decide

/-! ### The size of the banks -/

/-- How the banks are laid out, by `DS4_FLASH_MOE_MIXED_SLOT_BANK` and `DS4_FLASH_MOE_LAYER_SLOT_SLAB`. -/
structure BankLayout where
  /-- `flash_moe_mixed_slot_bank_enabled` -/
  mixedSlotBank : Bool
  /-- `flash_moe_layer_slot_slab_enabled` -/
  layerSlotSlabFlag : Bool

/-- `layer_slab` -/
def BankLayout.layerSlab (b : BankLayout) : Bool := b.mixedSlotBank && b.layerSlotSlabFlag

/-- `slab_align` -/
def slabAlign : UInt64 := 4096

/-- `layer_bytes` -/
def layerBytesForSlots (b : BankLayout) (slots : UInt64) (layer : LayerSidecar) : Option UInt64 :=
  if b.mixedSlotBank then checkedMul slots layer.expertStride
  else
    [Family.gate, .up, .down].foldlM
      (fun bytes fam => do checkedAdd bytes (← checkedMul slots (layer.familyBytes fam))) 0

/-- `if (layer_slab)` -/
def alignLayer (b : BankLayout) (total : UInt64) : Option UInt64 :=
  if b.layerSlab then checkedAlign total slabAlign else some total

/-- One turn of the loop over the layers. -/
def addLayer (b : BankLayout) (slots total : UInt64) (layer : LayerSidecar) : Option UInt64 := do
  let bytes ← layerBytesForSlots b slots layer
  let total ← alignLayer b total
  checkedAdd total bytes

/-- `ds4_flash_moe_sidecar_bank_bytes_for_slots` -/
def bankBytesForSlots (v : Variant) (b : BankLayout) (layer : Nat → LayerSidecar) (slots : Nat) : Option UInt64 :=
  if slots = 0 then none
  else (List.range v.nLayer).foldlM (fun total il => addLayer b (UInt64.ofNat slots) total (layer il)) 0

/-- The bytes of a layer, as a number. -/
def layerBytes (b : BankLayout) (slots : Nat) (layer : LayerSidecar) : Nat :=
  if b.mixedSlotBank then slots * layer.expertStride.toNat
  else
    slots * (layer.familyBytes .gate).toNat + slots * (layer.familyBytes .up).toNat +
      slots * (layer.familyBytes .down).toNat

/-- A layer behind the ones before it: with a slab for each layer it starts at a page. -/
def placeLayer (b : BankLayout) (slots total : Nat) (layer : LayerSidecar) : Nat :=
  (if b.layerSlab then roundUp total 4096 else total) + layerBytes b slots layer

/-- The bytes of the banks of all layers, as a number. -/
def bankBytes (v : Variant) (b : BankLayout) (layer : Nat → LayerSidecar) (slots : Nat) : Nat :=
  (List.range v.nLayer).foldl (fun total il => placeLayer b slots total (layer il)) 0

theorem layerBytesForSlots_exact (b : BankLayout) (layer : LayerSidecar) {slots : UInt64} (h : slots ≠ 0) :
    Exact (layerBytesForSlots b slots layer) (layerBytes b slots.toNat layer) := by
  unfold layerBytesForSlots layerBytes
  split_ifs
  · exact checkedMul_exact h
  · have hfam : ∀ (bytes : UInt64) (fam : Family),
        Exact (do checkedAdd bytes (← checkedMul slots (layer.familyBytes fam)))
          (bytes.toNat + slots.toNat * (layer.familyBytes fam).toNat) := by
      intro bytes fam
      refine (checkedMul_exact h).bind (Nat.le_add_left _ _) fun w hw => ?_
      rw [← hw]
      exact checkedAdd_exact
    have hsum := Exact.foldlM (g := fun k fam => k + slots.toNat * (layer.familyBytes fam).toNat) hfam
      (fun k fam => Nat.le_add_right k _) [Family.gate, .up, .down] 0
    have hzero : (0 : UInt64).toNat = 0 := rfl
    rwa [List.foldl_cons, List.foldl_cons, List.foldl_cons, List.foldl_nil, hzero, Nat.zero_add] at hsum

theorem le_placeLayer (b : BankLayout) (slots total : Nat) (layer : LayerSidecar) :
    total ≤ placeLayer b slots total layer := by
  unfold placeLayer
  split_ifs
  · exact Nat.le_trans (le_roundUp total 4096 (by decide)) (Nat.le_add_right _ _)
  · exact Nat.le_add_right _ _

/-- The alignment divides the size of a word. -/
theorem checkedAlign_slab (total : UInt64) :
    Exact (checkedAlign total slabAlign) (roundUp total.toNat 4096) := by
  have halign : slabAlign.toNat = 4096 := rfl
  have hdvd : slabAlign.toNat ∣ UInt64.size := by
    rw [halign]
    exact ⟨0x10000000000000, by decide⟩
  rw [← halign]
  exact checkedAlign_exact (by decide) hdvd

theorem addLayer_exact (b : BankLayout) (layer : LayerSidecar) {slots : UInt64} (h : slots ≠ 0)
    (total : UInt64) : Exact (addLayer b slots total layer) (placeLayer b slots.toNat total.toNat layer) := by
  unfold addLayer placeLayer
  refine (layerBytesForSlots_exact b layer h).bind (Nat.le_add_left _ _) fun bytes hbytes => ?_
  have hplaced : Exact (alignLayer b total)
      (if b.layerSlab then roundUp total.toNat 4096 else total.toNat) := by
    unfold alignLayer
    split_ifs
    · exact checkedAlign_slab total
    · exact .pure rfl
  refine hplaced.bind (Nat.le_add_right _ _) fun placed hp => ?_
  rw [← hbytes, ← hp]
  exact checkedAdd_exact

/-- **The size of the banks** comes out exactly, and nothing just where there are no slots or it does not fit. -/
theorem bankBytesForSlots_exact (v : Variant) (b : BankLayout) (layer : Nat → LayerSidecar) {slots : Nat}
    (hpos : 0 < slots) (hsize : slots < UInt64.size) :
    Exact (bankBytesForSlots v b layer slots) (bankBytes v b layer slots) := by
  have hslots : (UInt64.ofNat slots).toNat = slots := UInt64.toNat_ofNat_of_lt' hsize
  have hne : UInt64.ofNat slots ≠ 0 := by
    intro h0
    rw [h0] at hslots
    exact Nat.ne_of_lt hpos hslots
  unfold bankBytesForSlots bankBytes
  rw [if_neg (Nat.ne_of_gt hpos)]
  refine Exact.foldlM (fun total il => ?_) (fun total il => le_placeLayer b slots total (layer il)) _ 0
  have := addLayer_exact b (layer il) hne total
  rwa [hslots] at this

/-! ### More slots take more bytes -/

theorem layerBytes_mono (b : BankLayout) (layer : LayerSidecar) {j k : Nat} (h : j ≤ k) :
    layerBytes b j layer ≤ layerBytes b k layer := by
  have hmul : ∀ n, j * n ≤ k * n := fun n => Nat.mul_le_mul_right n h
  unfold layerBytes
  split_ifs
  · exact hmul _
  · exact Nat.add_le_add (Nat.add_le_add (hmul _) (hmul _)) (hmul _)

theorem placeLayer_mono (b : BankLayout) (layer : LayerSidecar) {j k s t : Nat} (h : j ≤ k) (hst : s ≤ t) :
    placeLayer b j s layer ≤ placeLayer b k t layer := by
  unfold placeLayer
  refine Nat.add_le_add ?_ (layerBytes_mono b layer h)
  split_ifs
  · exact roundUp_mono hst (by decide)
  · exact hst

theorem bankBytes_mono (v : Variant) (b : BankLayout) (layer : Nat → LayerSidecar) {j k : Nat} (h : j ≤ k) :
    bankBytes v b layer j ≤ bankBytes v b layer k := by
  have hfold : ∀ (ils : List Nat) {s t : Nat}, s ≤ t →
      ils.foldl (fun total il => placeLayer b j total (layer il)) s ≤
        ils.foldl (fun total il => placeLayer b k total (layer il)) t := by
    intro ils
    induction ils with
    | nil => exact id
    | cons il ils ih => exact fun hst => ih (placeLayer_mono b (layer il) h hst)
  exact hfold _ (Nat.le_refl 0)

/-! ### The memory of the context -/

/-- `DS4_N_SWA`, `DS4_N_HEAD_DIM` and so on, and the ratios of a model that is accepted. -/
def Variant.shape : Variant → Checkpoint.Shape
  | .flash => Checkpoint.flash
  | .pro   => Checkpoint.pro

/-- `DS4_METAL_PREFILL_CHUNK` and `DS4_METAL_GRAPH_RAW_CAP`, where they are set and not empty: the number
    `ds4_parse_u64_suffix` reads, if it reads one. -/
structure ContextEnv where
  prefillChunk : Option (Option UInt64)
  graphRawCap : Option (Option UInt64)

/-- `ds4_default_prefill_cap_for_prompt` -/
def defaultPrefillCapForPrompt (env : ContextEnv) (promptLen : Nat) : Nat :=
  if promptLen = 0 then 1
  else
    let cap :=
      match env.prefillChunk with
      | some (some v) => if v = 0 then promptLen else min v.toNat 0xffffffff
      | some none     => promptLen
      | none          => if 4096 < promptLen then 4096 else promptLen
    min (max cap 1) promptLen

/-- `metal_graph_raw_cap_for_context` -/
def rawCapForContext (v : Variant) (env : ContextEnv) (ctxSize prefillCap : Nat) : Nat :=
  let rawWindow := max (min v.shape.nSwa ctxSize) 1
  let wanted := max (min (roundUp (rawWindow + prefillCap) 256) ctxSize) 1
  let wanted := if env.prefillChunk.isNone then min wanted 8192 else wanted
  let rawCap := max wanted rawWindow
  match env.graphRawCap with
  | some (some v) => if v = 0 then rawCap else max (min (min v.toNat 0xffffffff) ctxSize) rawWindow
  | _             => rawCap

/-- The loop for `min_ratio`. -/
def minRatio (v : Variant) : Nat :=
  (List.range v.nLayer).foldl
    (fun least il =>
      let ratio := v.shape.ratio il
      if ratio ≠ 0 ∧ ratio < least then ratio else least) 0xffffffff

/-- What the compressed rows of a layer take. -/
def compressedBytes (v : Variant) (ctx il : Nat) : Nat :=
  let ratio := v.shape.ratio il
  if ratio = 0 then 0
  else
    let layerCompCap := ctx / ratio + 2
    layerCompCap * v.shape.headDim * 4 + if ratio = 4 then layerCompCap * v.shape.indexerHeadDim * 4 else 0

/-- `ds4_context_memory_estimate`, `total_bytes` on a graph backend.  Its sums are in 64 bits; they do not wrap,
    as `contextMemoryEstimate_lt` says. -/
def contextMemoryEstimate (v : Variant) (env : ContextEnv) (ctxSize : Int32) : Nat :=
  let ctx := if 0 < ctxSize then ctxSize.toInt.toNat else 1
  let prefillCap := defaultPrefillCapForPrompt env ctx
  let rawCap := rawCapForContext v env ctx prefillCap
  let compCap := ctx / (if minRatio v = 0xffffffff then ctx else minRatio v) + 2
  let rawBytes := v.nLayer * rawCap * v.shape.headDim * 4
  let compressed := ((List.range v.nLayer).map (compressedBytes v ctx)).sum
  let scratch := 2 * compCap * prefillCap * 4
  rawBytes + compressed + scratch

theorem minRatio_eq (v : Variant) : minRatio v = 4 := by
  cases v <;> decide +kernel

theorem prefillCap_le (env : ContextEnv) {ctx : Nat} (h : 0 < ctx) : defaultPrefillCapForPrompt env ctx ≤ ctx := by
  unfold defaultPrefillCapForPrompt
  rw [if_neg (Nat.ne_of_gt h)]
  exact Nat.min_le_right _ _

theorem rawCap_le (v : Variant) (env : ContextEnv) {ctx : Nat} (h : 0 < ctx) (prefillCap : Nat) :
    rawCapForContext v env ctx prefillCap ≤ ctx := by
  have hwindow : max (min v.shape.nSwa ctx) 1 ≤ ctx := Nat.max_le.2 ⟨Nat.min_le_right _ _, h⟩
  have hwanted : max (min (roundUp (max (min v.shape.nSwa ctx) 1 + prefillCap) 256) ctx) 1 ≤ ctx :=
    Nat.max_le.2 ⟨Nat.min_le_right _ _, h⟩
  have hfree : ∀ {w : Nat}, w ≤ ctx → max w (max (min v.shape.nSwa ctx) 1) ≤ ctx :=
    fun hw => Nat.max_le.2 ⟨hw, hwindow⟩
  have hchunk : min (max (min (roundUp (max (min v.shape.nSwa ctx) 1 + prefillCap) 256) ctx) 1) 8192 ≤ ctx :=
    Nat.le_trans (Nat.min_le_left _ _) hwanted
  unfold rawCapForContext
  dsimp only
  split
  · split_ifs
    · exact hfree hchunk
    · exact hfree hwanted
    all_goals exact hfree (Nat.min_le_right _ _)
  · split_ifs
    · exact hfree hchunk
    · exact hfree hwanted

theorem compressedBytes_le (v : Variant) (ctx il : Nat) (hil : il < v.nLayer) :
    compressedBytes v ctx il ≤ 2560 * (ctx / 4 + 2) := by
  have hdims : v.shape.headDim = 512 ∧ v.shape.indexerHeadDim = 128 ∧ v.nLayer = v.shape.nLayer := by
    cases v <;> exact ⟨rfl, rfl, rfl⟩
  obtain ⟨hhead, hindexer, hlayer⟩ := hdims
  unfold compressedBytes
  dsimp only
  rw [hhead, hindexer]
  rcases v.shape.ratio_mem il (hlayer ▸ hil) with h | h | h <;> rw [h]
  · exact Nat.zero_le _
  · rw [if_neg (by decide), if_pos rfl]
    omega
  · rw [if_neg (by decide), if_neg (by decide)]
    omega

/-- **The estimate** is far enough below the limit of 64 bits. -/
theorem contextMemoryEstimate_lt (v : Variant) (env : ContextEnv) (ctxSize : Int32) :
    contextMemoryEstimate v env ctxSize < 0xc000000000000000 := by
  obtain ⟨ctx, hctx, hpos, hlt⟩ : ∃ ctx, (if 0 < ctxSize then ctxSize.toInt.toNat else 1) = ctx ∧ 0 < ctx ∧
      ctx < 0x80000000 := by
    have hhigh : ctxSize.toInt < 0x80000000 := ctxSize.toInt_lt
    refine ⟨_, rfl, ?_⟩
    split_ifs with h
    · have hlow : 0 < ctxSize.toInt := (Int32.lt_iff_toInt_lt).1 h
      omega
    · omega
  have hprefill := prefillCap_le env hpos
  have hraw := rawCap_le v env hpos (defaultPrefillCapForPrompt env ctx)
  have hlayers : v.nLayer ≤ 61 := by cases v <;> decide
  have hhead : v.shape.headDim = 512 := by cases v <;> rfl
  have hrawBytes : v.nLayer * rawCapForContext v env ctx (defaultPrefillCapForPrompt env ctx) ≤ 61 * ctx :=
    Nat.mul_le_mul hlayers hraw
  have hcompressed : ((List.range v.nLayer).map (compressedBytes v ctx)).sum ≤ 61 * (2560 * (ctx / 4 + 2)) := by
    refine Nat.le_trans (List.sum_le_card_nsmul _ (2560 * (ctx / 4 + 2)) fun n hn => ?_) ?_
    · obtain ⟨il, hil, rfl⟩ := List.mem_map.1 hn
      exact compressedBytes_le v ctx il (List.mem_range.1 hil)
    · rw [List.length_map, List.length_range]
      exact Nat.mul_le_mul_right _ hlayers
  have hscratch : 2 * (ctx / 4 + 2) * defaultPrefillCapForPrompt env ctx ≤ 2 * (0x20000000 + 2) * 0x80000000 :=
    Nat.mul_le_mul (by omega) (by omega)
  rw [contextMemoryEstimate, hctx, minRatio_eq, hhead, if_neg (by decide)]
  omega

/-! ### The budget -/

/-- `ds4_model`: the size of the file and where its tensors begin.  The file is mapped, so it is smaller than any
    address space. -/
structure MappedModel where
  size : UInt64
  tensorDataPos : UInt64
  mapped : size.toNat < 0x4000000000000000

/-- `dense_bytes` -/
def MappedModel.denseBytes (m : MappedModel) : UInt64 :=
  if m.tensorDataPos < m.size then m.size - m.tensorDataPos else m.size

/-- What the budget depends on besides the option. -/
structure BudgetEnv where
  context : ContextEnv
  /-- `opt->ctx_size` -/
  ctxSize : Int32
  /-- `ds4_system_available_memory_bytes` -/
  available : UInt64
  /-- `ds4_gpu_system_memory_bytes` -/
  ram : UInt64
  /-- `DS4_SSD_CACHE_AUTO_PCT`, where it is a number -/
  autoPct : Option Int
  /-- `DS4_SSD_CACHE_MAX_PCT`, where it is a number -/
  maxPct : Option Int

/-- `opt->ssd_cache`: `auto`, or the number `ds4_parse_u64_suffix` reads, if it reads one. -/
inductive SsdCache where
  | auto
  | bytes (value : Option UInt64)

/-- `kv_bytes` -/
def kvBytes (v : Variant) (env : BudgetEnv) : UInt64 :=
  if 0 < env.ctxSize then UInt64.ofNat (contextMemoryEstimate v env.context env.ctxSize) else 0

/-- A percentage from the environment, from 1 to 100; else the default. -/
def percent (dflt : UInt64) (value : Option Int) : UInt64 :=
  match value with
  | some p => if 1 ≤ p ∧ p ≤ 100 then UInt64.ofNat p.toNat else dflt
  | none   => dflt

/-- `(n / 100u) * pct + (n % 100u) * pct / 100u` -/
def share (n pct : UInt64) : UInt64 := n / 100 * pct + n % 100 * pct / 100

/-- `max_pct` -/
def BudgetEnv.maxPercent (env : BudgetEnv) : UInt64 := percent 85 env.maxPct

/-- `pct` -/
def BudgetEnv.autoPercent (env : BudgetEnv) : UInt64 := percent 20 env.autoPct

/-- `reserved` -/
def reserved (v : Variant) (env : BudgetEnv) (m : MappedModel) : UInt64 := m.denseBytes + kvBytes v env

/-- `cap` -/
def budgetCap (v : Variant) (env : BudgetEnv) (m : MappedModel) : UInt64 :=
  let safeTotal := share env.ram env.maxPercent
  if reserved v env m < safeTotal then safeTotal - reserved v env m else 0

/-- `ds4_flash_moe_ssd_cache_budget` -/
def ssdCacheBudget (v : Variant) (env : BudgetEnv) (m : MappedModel) : SsdCache → Option UInt64
  | .auto =>
    if env.available = 0 ∨ env.available ≤ m.denseBytes + kvBytes v env then none
    else some (share (env.available - m.denseBytes - kvBytes v env) env.autoPercent)
  | .bytes none => none
  | .bytes (some value) =>
    if value = 0 then none
    else
      let budget := if 0 < env.ram ∧ budgetCap v env m < value then budgetCap v env m else value
      if budget = 0 then none else some budget

/-! ### The search -/

/-- Do the banks fit, and is their size known? -/
def fitsBudget (v : Variant) (b : BankLayout) (layer : Nat → LayerSidecar) (budget : UInt64) (slots : Nat) : Bool :=
  match bankBytesForSlots v b layer slots with
  | some bytes => bytes ≤ budget
  | none       => false

/-- `ds4_flash_moe_resolve_ssd_cache_slots`, where the option is given. -/
def resolveSsdCacheSlots (v : Variant) (b : BankLayout) (layer : Nat → LayerSidecar) (env : BudgetEnv)
    (m : MappedModel) (requested : Option Int) (opt : SsdCache) : Option Nat :=
  match ssdCacheBudget v env m opt with
  | none        => none
  | some budget =>
    let minSlots := activeExpertUsed v requested
    if fitsBudget v b layer budget minSlots then
      some (bisect (fitsBudget v b layer budget) (v.nExpert + 2 - minSlots) minSlots v.nExpert minSlots)
    else none

/-- So many slots have a bank that fits. -/
def Fits (v : Variant) (b : BankLayout) (layer : Nat → LayerSidecar) (budget slots : Nat) : Prop :=
  0 < slots ∧ bankBytes v b layer slots ≤ budget


variable {v : Variant} {b : BankLayout} {layer : Nat → LayerSidecar} {budget : UInt64}

theorem fitsBudget_iff {slots : Nat} (h : slots < UInt64.size) :
    fitsBudget v b layer budget slots ↔ Fits v b layer budget.toNat slots := by
  unfold fitsBudget Fits
  rcases Nat.eq_zero_or_pos slots with rfl | hpos
  · simp [bankBytesForSlots]
  · have hexact := bankBytesForSlots_exact v b layer hpos h
    cases hb : bankBytesForSlots v b layer slots with
    | some bytes => simp [UInt64.le_iff_toNat_le, hexact.some bytes hb, hpos]
    | none =>
      have hbig := hexact.none hb
      have := budget.toNat_lt
      have hsize : UInt64.size = 0x10000000000000000 := rfl
      simp only [Bool.false_eq_true, false_iff, not_and, not_le]
      omega

theorem nExpert_lt (v : Variant) : v.nExpert < UInt64.size := by
  cases v <;> decide

/-- Fewer slots fit too. -/
theorem fitsBudget_closed {j k : Nat} (hpos : 0 < j) (hjk : j ≤ k) (hk : k ≤ v.nExpert)
    (h : fitsBudget v b layer budget k) : fitsBudget v b layer budget j := by
  have hn := nExpert_lt v
  have hfits := (fitsBudget_iff (by omega)).1 h
  exact (fitsBudget_iff (by omega)).2 ⟨hpos, Nat.le_trans (bankBytes_mono v b layer hjk) hfits.2⟩

/-! ### What stays free -/

/-- The percentage is from 1 to 100. -/
theorem percent_le {dflt : UInt64} (value : Option Int) (h : dflt.toNat ≤ 100) :
    (percent dflt value).toNat ≤ 100 := by
  unfold percent
  split
  · rename_i p
    split_ifs with hp
    · rw [UInt64.toNat_ofNat_of_lt' (by have : UInt64.size = 0x10000000000000000 := rfl; omega)]
      omega
    · exact h
  · exact h

/-- The share is exact. -/
theorem share_toNat (n : UInt64) {pct : UInt64} (h : pct.toNat ≤ 100) :
    (share n pct).toNat = n.toNat * pct.toNat / 100 := by
  have hn := n.toNat_lt
  have hq : n.toNat / 100 * pct.toNat ≤ n.toNat / 100 * 100 := Nat.mul_le_mul_left _ h
  have hr : n.toNat % 100 * pct.toNat ≤ n.toNat % 100 * 100 := Nat.mul_le_mul_left _ h
  have hsplit : n.toNat * pct.toNat = 100 * (n.toNat / 100 * pct.toNat) + n.toNat % 100 * pct.toNat := by
    conv_lhs => rw [← Nat.div_add_mod n.toNat 100]
    rw [Nat.add_mul, Nat.mul_assoc]
  unfold share
  rw [UInt64.toNat_add, UInt64.toNat_mul, UInt64.toNat_div, UInt64.toNat_div, UInt64.toNat_mul, UInt64.toNat_mod]
  simp only [UInt64.reduceToNat]
  rw [hsplit]
  omega

theorem kvBytes_lt (v : Variant) (env : BudgetEnv) : (kvBytes v env).toNat < 0xc000000000000000 := by
  have hlt := contextMemoryEstimate_lt v env.context env.ctxSize
  unfold kvBytes
  split_ifs
  · rw [UInt64.toNat_ofNat_of_lt' (Nat.lt_trans hlt (by decide))]
    exact hlt
  · decide

theorem denseBytes_le (m : MappedModel) : m.denseBytes.toNat ≤ m.size.toNat := by
  unfold MappedModel.denseBytes
  split_ifs with h
  · rw [UInt64.toNat_sub_of_le _ _ (UInt64.le_of_lt h)]
    exact Nat.sub_le _ _
  · exact Nat.le_refl _

/-- The sum of the dense weights and the context does not wrap. -/
theorem reserved_toNat (v : Variant) (env : BudgetEnv) (m : MappedModel) :
    (reserved v env m).toNat = m.denseBytes.toNat + (kvBytes v env).toNat := by
  have hkv := kvBytes_lt v env
  have hdense := denseBytes_le m
  have hmap := m.mapped
  unfold reserved
  rw [UInt64.toNat_add]
  omega

theorem budgetCap_toNat (v : Variant) (env : BudgetEnv) (m : MappedModel) :
    (budgetCap v env m).toNat =
      env.ram.toNat * env.maxPercent.toNat / 100 - (m.denseBytes.toNat + (kvBytes v env).toNat) := by
  have hpct : env.maxPercent.toNat ≤ 100 := percent_le env.maxPct (by decide)
  have hshare := share_toNat env.ram hpct
  have hres := reserved_toNat v env m
  unfold budgetCap
  dsimp only
  split_ifs with h
  · rw [UInt64.toNat_sub_of_le _ _ (UInt64.le_of_lt h), hres]
    rw [hshare]
  · rw [UInt64.lt_iff_toNat_lt, hres, hshare] at h
    show 0 = _
    omega

/-- What the option allows, as a number. -/
def allowance (v : Variant) (env : BudgetEnv) (m : MappedModel) : SsdCache → Nat
  | .auto => (env.available.toNat - (m.denseBytes.toNat + (kvBytes v env).toNat)) * env.autoPercent.toNat / 100
  | .bytes none => 0
  | .bytes (some value) =>
    if env.ram = 0 then value.toNat
    else min value.toNat
      (env.ram.toNat * env.maxPercent.toNat / 100 - (m.denseBytes.toNat + (kvBytes v env).toNat))

theorem allowance_bytes (v : Variant) (env : BudgetEnv) (m : MappedModel) (value : UInt64) :
    allowance v env m (.bytes (some value)) =
      if env.ram = 0 then value.toNat
      else min value.toNat
        (env.ram.toNat * env.maxPercent.toNat / 100 - (m.denseBytes.toNat + (kvBytes v env).toNat)) := rfl

/-- The option is no number, or nothing is left beside the dense weights and the context. -/
def NoRoom (v : Variant) (env : BudgetEnv) (m : MappedModel) : SsdCache → Prop
  | .auto => env.available.toNat ≤ m.denseBytes.toNat + (kvBytes v env).toNat
  | opt   => allowance v env m opt = 0

/-- The budget is what the option allows. -/
theorem ssdCacheBudget_spec (v : Variant) (env : BudgetEnv) (m : MappedModel) (opt : SsdCache) :
    (NoRoom v env m opt ∧ ssdCacheBudget v env m opt = none) ∨
      ¬ NoRoom v env m opt ∧ ∃ budget, ssdCacheBudget v env m opt = some budget ∧
        budget.toNat = allowance v env m opt := by
  have hres : (m.denseBytes + kvBytes v env).toNat = m.denseBytes.toNat + (kvBytes v env).toNat :=
    reserved_toNat v env m
  cases opt with
  | auto =>
    have hiff : (env.available = 0 ∨ env.available ≤ m.denseBytes + kvBytes v env) ↔
        env.available.toNat ≤ m.denseBytes.toNat + (kvBytes v env).toNat := by
      rw [UInt64.le_iff_toNat_le, hres, ← UInt64.toNat_inj, or_iff_right_iff_imp]
      intro h0
      rw [h0]
      exact Nat.zero_le _
    show (env.available.toNat ≤ m.denseBytes.toNat + (kvBytes v env).toNat ∧ _) ∨
      ¬ env.available.toNat ≤ m.denseBytes.toNat + (kvBytes v env).toNat ∧ _
    unfold ssdCacheBudget
    dsimp only
    split_ifs with h
    · exact Or.inl ⟨hiff.1 h, rfl⟩
    · have hroom : ¬ env.available.toNat ≤ m.denseBytes.toNat + (kvBytes v env).toNat := fun hle => h (hiff.2 hle)
      refine Or.inr ⟨hroom, _, rfl, ?_⟩
      have hpct : env.autoPercent.toNat ≤ 100 := percent_le env.autoPct (by decide)
      have hdense : (env.available - m.denseBytes).toNat = env.available.toNat - m.denseBytes.toNat :=
        UInt64.toNat_sub_of_le _ _ ((UInt64.le_iff_toNat_le).2 (by omega))
      have hleft : (env.available - m.denseBytes - kvBytes v env).toNat =
          env.available.toNat - (m.denseBytes.toNat + (kvBytes v env).toNat) := by
        rw [UInt64.toNat_sub_of_le _ _ ((UInt64.le_iff_toNat_le).2 (by omega)), hdense, Nat.sub_sub]
      rw [share_toNat _ hpct, hleft]
      rfl
  | bytes value =>
    cases value with
    | none => exact Or.inl ⟨rfl, rfl⟩
    | some value =>
      have hcap := budgetCap_toNat v env m
      -- the number of the option, or the cap where that is smaller
      obtain ⟨budget, hbudget, hallow⟩ : ∃ budget,
          (if 0 < env.ram ∧ budgetCap v env m < value then budgetCap v env m else value) = budget ∧
            budget.toNat = allowance v env m (.bytes (some value)) := by
        refine ⟨_, rfl, ?_⟩
        rw [allowance_bytes, ← hcap]
        rcases Decidable.em (env.ram = 0) with h0 | hne
        · rw [if_neg (fun h => (UInt64.pos_iff_ne_zero).1 h.1 h0), if_pos h0]
        · have hpos := (UInt64.pos_iff_ne_zero).2 hne
          rw [if_neg hne]
          split_ifs with h
          · exact (Nat.min_eq_right (Nat.le_of_lt ((UInt64.lt_iff_toNat_lt).1 h.2))).symm
          · have hle : ¬ budgetCap v env m < value := fun hlt => h ⟨hpos, hlt⟩
            exact (Nat.min_eq_left (Nat.le_of_not_lt (mt (UInt64.lt_iff_toNat_lt).2 hle))).symm
      have hzero : budget = 0 ↔ NoRoom v env m (.bytes (some value)) := by
        show _ ↔ allowance v env m (.bytes (some value)) = 0
        rw [← hallow, ← UInt64.toNat_inj]
        rfl
      have hvalue : value = 0 → budget = 0 := by
        rintro rfl
        rw [← hbudget, if_neg (fun h => UInt64.not_lt_zero h.2)]
      unfold ssdCacheBudget
      dsimp only
      rw [hbudget, ← hzero]
      split_ifs with h h'
      · exact Or.inl ⟨hvalue h, rfl⟩
      · exact Or.inl ⟨h', rfl⟩
      · exact Or.inr ⟨h', budget, rfl, hallow⟩

/-- What is left beside the dense weights and the context keeps them and the banks in the share. -/
theorem le_share_of_le_allowance {env : BudgetEnv} {m : MappedModel} {value : UInt64} {n : Nat} (hram : 0 < env.ram)
    (hroom : ¬ NoRoom v env m (.bytes (some value))) (h : n ≤ allowance v env m (.bytes (some value))) :
    n + m.denseBytes.toNat + (kvBytes v env).toNat ≤ env.ram.toNat * env.maxPercent.toNat / 100 := by
  have hpos : allowance v env m (.bytes (some value)) ≠ 0 := hroom
  rw [allowance_bytes, if_neg ((UInt64.pos_iff_ne_zero).1 hram)] at h hpos
  omega

theorem allowance_le {env : BudgetEnv} {m : MappedModel} {value : UInt64} :
    allowance v env m (.bytes (some value)) ≤ value.toNat := by
  rw [allowance_bytes]
  split_ifs
  · exact Nat.le_refl _
  · exact Nat.min_le_left _ _

/-- **The slots** are the most that fit between the experts in use and all of them.  There are none just where nothing
    is left for the banks, or the least of them does not fit; and a number of bytes never takes the banks, the
    dense weights and the context beyond the share of the memory. -/
theorem ssd_cache_slots_optimal (v : Variant) (b : BankLayout) (layer : Nat → LayerSidecar) (env : BudgetEnv)
    (m : MappedModel) (requested : Option Int) (opt : SsdCache) :
    let active := activeExpertUsed v requested
    let slots := resolveSsdCacheSlots v b layer env m requested opt
    (slots = none ↔ NoRoom v env m opt ∨ ¬ Fits v b layer (allowance v env m opt) active) ∧
      ∀ k, slots = some k →
        (active ≤ k ∧ k ≤ v.nExpert ∧ Fits v b layer (allowance v env m opt) k ∧
          ∀ j, k < j → j ≤ v.nExpert → ¬ Fits v b layer (allowance v env m opt) j) ∧
        ∀ value, opt = .bytes (some value) → bankBytes v b layer k ≤ value.toNat ∧
          (0 < env.ram → bankBytes v b layer k + m.denseBytes.toNat + (kvBytes v env).toNat ≤
            env.ram.toNat * env.maxPercent.toNat / 100) := by
  intro active slots
  have hn := nExpert_lt v
  have hactive : active ≤ v.nExpert := Nat.le_trans (activeExpertUsed_le v requested) (nExpertUsed_le v)
  rcases ssdCacheBudget_spec v env m opt with ⟨hno, hnone⟩ | ⟨hroom, budget, hbudget, hallow⟩
  · have hslots : slots = none := by
      show resolveSsdCacheSlots v b layer env m requested opt = none
      unfold resolveSsdCacheSlots
      rw [hnone]
    rw [hslots]
    exact ⟨⟨fun _ => Or.inl hno, fun _ => rfl⟩, nofun⟩
  · have hslots : slots = if fitsBudget v b layer budget active then
        some (bisect (fitsBudget v b layer budget) (v.nExpert + 2 - active) active v.nExpert active) else none := by
      show resolveSsdCacheSlots v b layer env m requested opt = _
      unfold resolveSsdCacheSlots
      rw [hbudget]
    have hmin : fitsBudget v b layer budget active ↔ Fits v b layer (allowance v env m opt) active := by
      rw [← hallow]
      exact fitsBudget_iff (Nat.lt_of_le_of_lt hactive hn)
    rw [hslots]
    split_ifs with hfits
    · refine ⟨⟨nofun, fun h => ?_⟩, fun k hk => ?_⟩
      · exact absurd (hmin.1 hfits) (h.resolve_left hroom)
      · obtain ⟨hlow, hhigh, hfit, hbest⟩ := bisect_spec
          (fun j k hj hjk hk h => fitsBudget_closed (Nat.lt_of_lt_of_le (hmin.1 hfits).1 hj) hjk hk h) hfits hactive
        rw [Option.some.inj hk] at hlow hhigh hfit hbest
        have hk' := (fitsBudget_iff (Nat.lt_of_le_of_lt hhigh hn)).1 hfit
        rw [hallow] at hk'
        refine ⟨⟨hlow, hhigh, hk', fun j hkj hj hjfits => hbest j hkj hj ?_⟩, ?_⟩
        · rw [← hallow] at hjfits
          exact (fitsBudget_iff (Nat.lt_of_le_of_lt hj hn)).2 hjfits
        · rintro value rfl
          exact ⟨Nat.le_trans hk'.2 allowance_le, fun hram => le_share_of_le_allowance hram hroom hk'.2⟩
    · exact ⟨⟨fun _ => Or.inr fun h => hfits (hmin.2 h), fun _ => rfl⟩, nofun⟩

end DS4.FlashMoe
