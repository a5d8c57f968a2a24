import DS4.FlashMoe.Routing
import DS4.Lib.TopK
import Mathlib.Data.List.Sort

namespace DS4.FlashMoe

/-!
# Resident MoE prefill — hot experts on the ANE, the others in a cold tail

With every expert in memory, prefill splits the experts of a batch among two engines.  The submit
loop starts an ANE job for each hot expert and keeps the jobs in a short queue; a job that is
finished adds its rows to `batch_routed_out`.  The cold experts run on the GPU afterwards, or,
with an overlap switched on, while the jobs still run: then the split is fixed when a job is
queued, not when it is finished.

* `finishOne`, `drain` — finishing queued jobs.
* `submit` — one expert of the submit loop.
* `coldTail` — the experts the ANE did not take: one by one, or in the grouped kernel.
* `residentMoeRunMppPrefillDedup` — the whole call.

A GPU call other than starting or finishing an ANE job succeeds here.  Dequantized copies of the
experts and the command buffers are left out: they change no row.
-/

open DS4.Lib

variable {W X R : Type*}

/-- The sizes and the environment settings the call reads. -/
structure ResidentConfig where
  /-- `DS4_N_EXPERT` -/
  nExpert : Nat
  prefillCap : Nat
  batchRoutedScratchCap : Nat
  mppPartialTilesAllowed : Bool
  /-- `tile_util < min_tile_util`, of the referenced tile rows and all pairs. -/
  belowMinTileUtil : Nat → Nat → Bool
  /-- `force_ane_hybrid`, or `DS4_RESIDENT_MOE_ANE_HYBRID`. -/
  useAneHybrid : Bool
  /-- `DS4_RESIDENT_MOE_ANE_NAX_HYBRID` -/
  aneNaxHybrid : Bool
  /-- `DS4_RESIDENT_MOE_ANE_GPU_TAIL_GATHER_SCATTER` -/
  aneGpuTailGatherScatter : Bool
  /-- `DS4_RESIDENT_MOE_ANE_GPU_TAIL_OVERLAP` -/
  aneGpuTailOverlap : Bool
  /-- `DS4_RESIDENT_MOE_ANE_NAX_OVERLAP` -/
  aneNaxOverlap : Bool
  /-- With `DS4_RESIDENT_MOE_ANE_NAX_FRAC` set, whether a load reaches that part of a total. -/
  aneNaxFrac : Option (Nat → Nat → Bool)
  aneMinRefs : Nat
  aneMaxRefs : Nat
  aneMaxGroups : Nat
  aneQueueCap : Nat
  aneQueueCap_pos : 0 < aneQueueCap
  aneQueueCap_le : aneQueueCap ≤ 12

namespace ResidentConfig

variable (c : ResidentConfig)

def scratchCap : Nat :=
  if c.batchRoutedScratchCap ≠ 0 then c.batchRoutedScratchCap else c.prefillCap

def useAneNax : Bool := c.useAneHybrid && c.aneNaxHybrid

def useAneGpuTailGatherScatter : Bool :=
  c.useAneHybrid && !c.useAneNax && c.aneGpuTailGatherScatter

def useAneGpuTailOverlap : Bool := c.useAneGpuTailGatherScatter && c.aneGpuTailOverlap

def useAneNaxOverlap : Bool := c.useAneNax && c.aneNaxOverlap

def useAneTailOverlap : Bool := c.useAneNaxOverlap || c.useAneGpuTailOverlap

/-- The balancer replaces the band of reference counts when it has a fraction to aim at. -/
def useAneNaxBalance : Option (Nat → Nat → Bool) := if c.useAneNax then c.aneNaxFrac else none

/-- The rows that fill whole tiles, or any rows where partial tiles are allowed. -/
def mppTileRefs (counts : Int → Nat) : Nat :=
  ((List.range c.nExpert).map fun i =>
    let refs := counts i
    if c.mppPartialTilesAllowed then refs else refs / 64 * 64).sum

/-- The group fits the ANE batch: the scratch rows and the band of reference counts. -/
def inBand (g : RefGroup) : Bool :=
  g.refs ≠ 0 && g.refs ≤ c.scratchCap && c.aneMinRefs ≤ g.refs &&
    (c.aneMaxRefs = 0 || g.refs ≤ c.aneMaxRefs)

/-- The balancer's loop: experts go to the ANE, largest first, until its load or the number of
    groups is reached. -/
def assignFrom (reached : Nat → Bool) : Nat → Nat → List RefGroup → List Int
  | _, _, [] => []
  | load, n, g :: ord =>
    if reached load then []
    else if c.aneMaxGroups ≠ 0 ∧ c.aneMaxGroups ≤ n then []
    else g.expert :: assignFrom reached (load + g.refs) (n + 1) ord

/-- `ane_assign` -/
def aneAssign (reached : Nat → Nat → Bool) (gs : List RefGroup) : List Int :=
  let eligible := gs.filter c.inBand
  let ord := topK RefGroup.refs eligible.length eligible
  c.assignFrom (fun load => reached load (eligible.map RefGroup.refs).sum) 0 0 ord

end ResidentConfig

/-- Whether the ANE job of an expert starts, and whether it then finishes. -/
structure AneOutcomes where
  starts : Int → Bool
  finishes : Int → Bool

/-- The state of the hybrid path: the queued jobs, the experts the ANE answers for, and the
    output. -/
structure HybridRun (R : Type*) where
  queue : List RefGroup
  aneMask : Int → Bool
  aneGroups : Nat
  aneRefs : Nat
  out : Nat → R

section Run

variable [AddCommMonoid R] [SMul W R]

/-! ### The ANE queue -/

/-- `DS4_RESIDENT_ANE_FINISH_ONE`: the oldest job adds its rows, unless it fails to finish. -/
def finishOne (K : MoeKernels X R) (refs : Nat → Nat × W) (o : AneOutcomes) (s : HybridRun R) :
    HybridRun R :=
  match s.queue with
  | [] => s
  | p :: queue =>
    if o.finishes p.expert then
      { queue
        aneMask := Function.update s.aneMask p.expert true
        aneGroups := s.aneGroups + 1
        aneRefs := s.aneRefs + p.refs
        out := scatterAdd s.out (expertRows K p.expert (segment refs p.start p.refs)) }
    else { s with queue }

/-- `while (ane_queue_n != 0) DS4_RESIDENT_ANE_FINISH_ONE()` -/
def drain (K : MoeKernels X R) (refs : Nat → Nat × W) (o : AneOutcomes) (s : HybridRun R) :
    HybridRun R :=
  s.queue.foldl (fun s _ => finishOne K refs o s) s

/-- The groups the submit loop passes over: the balancer gave them to the tail, or they are
    outside the band, or enough groups are on the ANE already. -/
def passedOver (c : ResidentConfig) (gs : List RefGroup) (n : Nat) (g : RefGroup) : Bool :=
  match c.useAneNaxBalance with
  | some reached => !(c.aneAssign reached gs).contains g.expert
  | none => !c.inBand g || (c.aneMaxGroups ≠ 0 && c.aneMaxGroups ≤ n)

/-- One expert of the submit loop. -/
def submit (c : ResidentConfig) (K : MoeKernels X R) (rt : RoutingTable W) (gs : List RefGroup)
    (refs : Nat → Nat × W) (o : AneOutcomes) (s : HybridRun R) (g : RefGroup) :
    Option (HybridRun R) :=
  if g.refs = 0 then some s
  else if rt.nTokens < g.refs ∨ g.expert < 0 ∨ (c.nExpert : Int) ≤ g.expert then none
  else if passedOver c gs (s.aneGroups + s.queue.length) g then some s
  else
    let s := if s.queue.length = c.aneQueueCap then finishOne K refs o s else s
    if o.starts g.expert then
      -- with an overlap the tail must know the split before the job is finished
      some { s with
        queue := s.queue ++ [g]
        aneMask :=
          if c.useAneTailOverlap then Function.update s.aneMask g.expert true else s.aneMask }
    else some s

/-! ### The cold tail -/

/-- The groups the ANE does not answer for. -/
def coldGroups (aneMask : Int → Bool) (gs : List RefGroup) : List RefGroup :=
  gs.filter fun g => !aneMask g.expert && g.refs ≠ 0

/-- One expert at a time: its rows are gathered, computed and added. -/
def runExpert (K : MoeKernels X R) (rt : RoutingTable W) (refs : Nat → Nat × W) (out : Nat → R)
    (g : RefGroup) : Option (Nat → R) :=
  if g.refs = 0 then some out
  else if rt.nTokens < g.refs then none
  else some (scatterAdd out (expertRows K g.expert (segment refs g.start g.refs)))

/-- `metal_graph_routed_moe_batch_tiled`: every row becomes the sum over the experts of its token
    that are not in the skip mask. -/
def routedMoeBatchTiled (K : MoeKernels X R) (rt : RoutingTable W) (skip : Int → Bool) : Nat → R :=
  fun t => ((List.range rt.used).map fun k =>
    let e := rt.trueIds (t * rt.used + k)
    if skip e then 0 else rt.pairWeights (t * rt.used + k) • K.expert e (K.x t)).sum

/-- The experts the ANE did not take, after the submit loop. -/
def coldTail (c : ResidentConfig) (K : MoeKernels X R) (rt : RoutingTable W) (gs : List RefGroup)
    (refs : Nat → Nat × W) (o : AneOutcomes) (s : HybridRun R) : Option (HybridRun R) :=
  let coldRefs := ((coldGroups s.aneMask gs).map RefGroup.refs).sum
  if coldRefs ≠ 0 ∧ c.useAneGpuTailGatherScatter = true then do
    let out ← (coldGroups s.aneMask gs).foldlM (runExpert K rt refs) s.out
    let s := { s with out }
    if c.useAneGpuTailOverlap then some (drain K refs o s) else some s
  else if coldRefs ≠ 0 then
    let aneContributes := if c.useAneNaxOverlap then !s.queue.isEmpty else s.aneRefs ≠ 0
    if aneContributes then
      -- the tail goes to `batch_ffn_out`, and is added once the jobs are in
      let tail := routedMoeBatchTiled K rt s.aneMask
      let s := if c.useAneNaxOverlap then drain K refs o s else s
      some { s with out := fun t => s.out t + tail t }
    else
      -- the tail overwrites `batch_routed_out`, with the skip mask cleared
      let s := { s with out := routedMoeBatchTiled K rt fun _ => false }
      some (if c.useAneNaxOverlap then drain K refs o s else s)
  else if c.useAneTailOverlap ∧ s.queue ≠ [] then some (drain K refs o s)
  else some s

/-- The hybrid path: the submit loop, the queue, and the cold tail. -/
def runHybrid (c : ResidentConfig) (K : MoeKernels X R) (rt : RoutingTable W) (gs : List RefGroup)
    (refs : Nat → Nat × W) (o : AneOutcomes) : Option (Nat → R) := do
  let s ← gs.foldlM (submit c K rt gs refs o)
    { queue := [], aneMask := fun _ => false, aneGroups := 0, aneRefs := 0, out := fun _ => 0 }
  let s := if c.useAneTailOverlap then s else drain K refs o s
  let s ← coldTail c K rt gs refs o s
  some s.out

/-! ### The whole call -/

/-- `metal_graph_resident_moe_run_mpp_prefill_dedup`: `batch_routed_out`, when the call returns
    true.  Without the hybrid every expert runs on the GPU, in one kernel or its fallback. -/
def residentMoeRunMppPrefillDedup (c : ResidentConfig) (K : MoeKernels X R) (rt : RoutingTable W)
    (fresh : Nat → Nat × W) (o : AneOutcomes) : Option (Nat → R) :=
  if rt.nTokens = 0 ∨ c.prefillCap < rt.nTokens then none
  else if c.scratchCap = 0 then none
  else if 0xFFFFFFFF < rt.nPairs then none
  else (countRefs c.nExpert rt.ids).bind fun counted =>
    if c.belowMinTileUtil (c.mppTileRefs counted.counts) rt.nPairs then none
    else
      let unique := counted.unique.insertionSort (· ≤ ·)
      let gs := refGroups counted.counts unique
      let refs := refLists rt.entries counted.counts unique fresh
      if c.prefillCap * rt.used < c.prefillCap + rt.nTokens then none
      else if c.useAneHybrid then runHybrid c K rt gs refs o
      else gs.foldlM (runExpert K rt refs) fun _ => 0

end Run

end DS4.FlashMoe
