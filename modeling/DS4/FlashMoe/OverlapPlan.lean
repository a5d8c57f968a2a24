import DS4.Lib.TopK
import Mathlib.Algebra.Order.BigOperators.Group.List
import Mathlib.Data.List.Sort

namespace DS4.FlashMoe

/-!
# Flash-MoE prefill — the plan of the overlap scheduler

The overlap scheduler of the streaming prefill spreads the experts of a batch over the ANE and the
GPU before it runs them.  An expert whose last ANE batch would be badly filled is split: the full
batches are one item, the tail another.  The items are ordered by their cost, dealt out to the two
lanes by the load each would reach, and then interleaved so that GPU work covers the ANE's.

* `planPieces` — the one or two items of an expert.
* `sortByWork`, `dealLanes`, `mergeLoop` — the three passes.
* `Consecutive`, `planPieces_consecutive` — the pieces of an expert are its references, cut once at
  most.
* `dealLanes_perm`, `mergeLoop_perm` — the passes only reorder the items and set their lanes; the
  last loop ends.
* `overlap_plan_partitions` — **the plan** covers every reference of every valid expert once.

Costs are doubles in the source.  Nothing here depends on what their operations do, so the type of
costs is any with the operations.  Counts of references are `uint32_t`, offsets `int32_t`.
-/

open DS4.Lib

/-- `ds4_prefill_lane` -/
inductive PrefillLane where
  | gpu
  | ane
  deriving DecidableEq, Repr

/-- `ds4_flash_prefill_plan_item`; `start` is its `begin`. -/
structure PlanItem (D : Type) where
  ui : Nat
  start : UInt32
  refs : UInt32
  expert : Int32
  lane : PrefillLane
  tailSlice : Bool
  gpuCost : D
  aneCost : D
  ssdCost : D
  slotCached : Bool
  aneEligible : Bool

/-- The settings of the scheduler: the ANE batches, the limit on references and its override, and
    the constants of the cost model.  `never` is the cost of what the ANE cannot run. -/
structure PlanSettings (D : Type) where
  hybridAneMinRefs : UInt32
  aneBatches : List UInt32
  aneMaxRefs : Option UInt32
  aneChunkBigRefs : Bool
  aneRelSpeed : D
  aneCallRefs : D
  ssdRefs : D
  aneMinUtil : D
  gpuCover : D
  never : D

/-- The arguments of the scheduler: the experts of the batch, where the references of each begin and
    end, and which are in a slot. -/
structure PlanTable where
  nExpert : Int32
  nUnique : Nat
  unique : Nat → Int32
  offsets : Nat → Int32
  slotCacheExpert : Option (Int32 → Bool)

namespace PlanTable

/-- Entry `i` names an expert of the model. -/
def Valid (t : PlanTable) (i : Nat) : Prop := ¬ t.unique i < 0 ∧ t.unique i < t.nExpert

instance (t : PlanTable) (i : Nat) : Decidable (t.Valid i) := inferInstanceAs (Decidable (_ ∧ _))

/-- `begin` of an expert. -/
def start (t : PlanTable) (i : Nat) : UInt32 := (t.offsets i).toUInt32

/-- `refs` of an expert. -/
def refs (t : PlanTable) (i : Nat) : UInt32 := (t.offsets (i + 1) - t.offsets i).toUInt32

def slotCached (t : PlanTable) (i : Nat) : Bool :=
  t.slotCacheExpert.elim false fun cached => cached (t.unique i)

end PlanTable

section Plan

variable {D : Type}

/-! ### The pieces of an expert -/

namespace PlanSettings

/-- `prefill_ane_select_batch_for_refs`: the smallest batch with room, else the largest. -/
def selectBatchForRefs (s : PlanSettings D) (refs : UInt32) : UInt32 :=
  let batches := s.aneBatches.insertionSort (· ≤ ·)
  (batches.find? fun b => refs ≤ b).getD (batches.getLast?.getD 0)

/-- The most references of a group that is run whole. -/
def maxRefs (s : PlanSettings D) (refs : UInt32) : UInt32 :=
  s.aneMaxRefs.getD (s.selectBatchForRefs refs)

/-- `prefill_ane_chunk_refs_for_group`: the references of a chunk. -/
def chunkRefs (s : PlanSettings D) (refs : UInt32) : UInt32 :=
  let batch := s.selectBatchForRefs refs
  let chunkRefs := if s.maxRefs refs < batch then s.maxRefs refs else batch
  if chunkRefs = 0 then 1 else chunkRefs

/-- May a group be run in chunks? -/
def canChunk (s : PlanSettings D) (refs : UInt32) : Bool := s.aneChunkBigRefs || refs ≤ s.maxRefs refs

/-- The references of the ANE batches that `n` references of a group of `refs` take. -/
def paddedRefs (s : PlanSettings D) (refs n : UInt32) : UInt32 :=
  (n + s.chunkRefs refs - 1) / s.chunkRefs refs * s.selectBatchForRefs refs

variable [Add D] [Div D] [NatCast D] [LT D] [DecidableLT D] [LE D] [DecidableLE D]

/-- How full these batches are. -/
def aneUtil (s : PlanSettings D) (refs n : UInt32) : D :=
  (n.toNat : D) / ((s.paddedRefs refs n).toNat : D)

/-- Is the tail of a group left to the GPU? -/
def splitLowUtilTail (s : PlanSettings D) (refs : UInt32) : Bool :=
  let groupUtil : D := if s.paddedRefs refs refs ≠ 0 then s.aneUtil refs refs else ((0 : Nat) : D)
  s.canChunk refs && decide (s.hybridAneMinRefs ≤ refs) && decide (groupUtil < s.aneMinUtil) &&
    decide (s.chunkRefs refs < refs) && decide (0 < s.chunkRefs refs)

/-- The references of a group that may run on the ANE. -/
def aneRefs (s : PlanSettings D) (refs : UInt32) : UInt32 :=
  if s.splitLowUtilTail refs then refs / s.chunkRefs refs * s.chunkRefs refs else refs

/-- `stage_cost` -/
def stageCost (s : PlanSettings D) (t : PlanTable) (i : Nat) : D :=
  if t.slotCached i then ((0 : Nat) : D) else s.ssdRefs

/-- The item with the full batches. -/
def headItem (s : PlanSettings D) (t : PlanTable) (i : Nat) : PlanItem D :=
  let n := s.aneRefs (t.refs i)
  { ui := i, start := t.start i, refs := n, expert := t.unique i, lane := .gpu, tailSlice := false
    gpuCost := (n.toNat : D) + s.stageCost t i
    aneCost := ((s.paddedRefs (t.refs i) n).toNat : D) / s.aneRelSpeed + s.aneCallRefs + s.stageCost t i
    ssdCost := s.stageCost t i
    slotCached := t.slotCached i
    aneEligible := s.canChunk (t.refs i) && decide (s.hybridAneMinRefs ≤ n) &&
      decide (s.aneMinUtil ≤ s.aneUtil (t.refs i) n) }

/-- An item that runs on the GPU only. -/
def gpuItem (s : PlanSettings D) (t : PlanTable) (i : Nat) (start refs : UInt32) (tailSlice : Bool) :
    PlanItem D :=
  { ui := i, start, refs, expert := t.unique i, lane := .gpu, tailSlice
    gpuCost := (refs.toNat : D) + s.stageCost t i
    aneCost := s.never
    ssdCost := s.stageCost t i
    slotCached := t.slotCached i
    aneEligible := false }

/-- The items of one expert: its full ANE batches and the tail, when it is split. -/
def planPieces (s : PlanSettings D) (t : PlanTable) (i : Nat) : List (PlanItem D) :=
  if ¬ t.Valid i then []
  else if t.refs i = 0 then []
  else
    let n := s.aneRefs (t.refs i)
    let tail := if s.splitLowUtilTail (t.refs i) then t.refs i - n else 0
    (if n ≠ 0 then [s.headItem t i] else []) ++
      if tail ≠ 0 then [s.gpuItem t i (t.start i + n) tail true]
      else if n = 0 then [s.gpuItem t i (t.start i) (t.refs i) false]
      else []

/-- The first pass. -/
def planWork (s : PlanSettings D) (t : PlanTable) : List (PlanItem D) :=
  (List.range t.nUnique).flatMap (s.planPieces t)

/-! ### The three passes -/

variable [Mul D] [BEq D]

/-- The cost an item is sorted by. -/
def workCost (p : PlanItem D) : D :=
  if p.aneEligible then (if p.aneCost < p.gpuCost then p.gpuCost else p.aneCost) else p.gpuCost

/-- Whether the inner loop stops at `prev`, with `key` in hand. -/
def staysBefore (prev key : PlanItem D) : Bool :=
  decide (workCost key < workCost prev) ||
    (workCost prev == workCost key && decide (key.refs ≤ prev.refs))

/-- One step of `prefill_plan_sort_by_work`: the items behind the place of `key` move up by one. -/
def insertByWork (out : List (PlanItem D)) (key : PlanItem D) : List (PlanItem D) :=
  out.rdropWhile (fun prev => !staysBefore prev key) ++
    key :: out.rtakeWhile (fun prev => !staysBefore prev key)

/-- `prefill_plan_sort_by_work` -/
def sortByWork (items : List (PlanItem D)) : List (PlanItem D) := items.foldl insertByWork []

/-- The two lanes and their loads. -/
structure Lanes (D : Type) where
  gpuLoad : D
  aneLoad : D
  ane : List (PlanItem D)
  gpu : List (PlanItem D)

/-- One item goes to the lane that keeps the makespan smaller. -/
def dealLane (l : Lanes D) (p : PlanItem D) : Lanes D :=
  if p.aneEligible then
    let ifGpu := l.gpuLoad + p.gpuCost
    let ifAne := l.aneLoad + p.aneCost
    let makeGpu := if l.aneLoad < ifGpu then ifGpu else l.aneLoad
    let makeAne := if ifAne < l.gpuLoad then l.gpuLoad else ifAne
    if makeAne < makeGpu then
      { l with aneLoad := ifAne, ane := l.ane ++ [{ p with lane := .ane }] }
    else { l with gpuLoad := ifGpu, gpu := l.gpu ++ [p] }
  else { l with gpuLoad := l.gpuLoad + p.gpuCost, gpu := l.gpu ++ [p] }

def dealLanes (work : List (PlanItem D)) : Lanes D :=
  work.foldl dealLane ⟨((0 : Nat) : D), ((0 : Nat) : D), [], []⟩

/-- The inner loop of the last pass: what is left of the GPU items, and the plan so far. -/
def coverLoop (aneDone : Bool) (cover : D) :
    D → List (PlanItem D) → List (PlanItem D) → List (PlanItem D) × List (PlanItem D)
  | _, [], out             => ([], out)
  | covered, p :: gpu, out =>
    if aneDone || decide (covered < cover) || out.isEmpty then
      coverLoop aneDone cover (covered + p.gpuCost) gpu (out ++ [p])
    else (p :: gpu, out)

/-- The outer loop: an ANE item, GPU items that cover it, and after the last ANE item the rest. -/
def mergeLoop (s : PlanSettings D) :
    Nat → List (PlanItem D) → List (PlanItem D) → List (PlanItem D) → Option (List (PlanItem D))
  | _, [], [], out           => some out
  | 0, _, _, _               => none
  | fuel + 1, [], gpu, out   =>
    let (rest, out) := coverLoop true ((0 : Nat) : D) ((0 : Nat) : D) gpu out
    mergeLoop s fuel [] [] (out ++ rest)
  | fuel + 1, p :: ane, gpu, out =>
    let (rest, out) :=
      coverLoop ane.isEmpty (p.aneCost * s.gpuCover) ((0 : Nat) : D) gpu (out ++ [p])
    if ane.isEmpty then mergeLoop s fuel [] [] (out ++ rest) else mergeLoop s fuel ane rest out

/-- `build_flash_prefill_overlap_plan` -/
def overlapPlan (s : PlanSettings D) (t : PlanTable) : Option (List (PlanItem D)) :=
  let work := sortByWork (s.planWork t)
  let lanes := dealLanes work
  s.mergeLoop (work.length + 1) lanes.ane lanes.gpu []

end PlanSettings

/-! ### What an item covers -/

namespace PlanItem

/-- The first reference of an item; its `begin` is an unsigned copy of a signed offset. -/
def lo (p : PlanItem D) : Int := p.start.toInt32.toInt

/-- Where the references of an item end. -/
def hi (p : PlanItem D) : Int := p.lo + p.refs.toNat

/-- The item runs reference `r`. -/
def Covers (p : PlanItem D) (r : Int) : Prop := p.lo ≤ r ∧ r < p.hi

instance (p : PlanItem D) (r : Int) : Decidable (p.Covers r) := inferInstanceAs (Decidable (_ ∧ _))

/-- The item as it was before it was dealt to a lane. -/
def undealt (p : PlanItem D) : PlanItem D := { p with lane := .gpu }

@[simp] theorem undealt_lo (p : PlanItem D) : p.undealt.lo = p.lo := rfl
@[simp] theorem undealt_hi (p : PlanItem D) : p.undealt.hi = p.hi := rfl
@[simp] theorem undealt_ui (p : PlanItem D) : p.undealt.ui = p.ui := rfl

end PlanItem

/-- The items are the references from `lo` to `hi`, one behind the other, none of them empty; there
    are two of them at most. -/
inductive Consecutive : Int → Int → List (PlanItem D) → Prop
  | none {x : Int} : Consecutive x x []
  | one {p : PlanItem D} : p.lo < p.hi → Consecutive p.lo p.hi [p]
  | two {p q : PlanItem D} : p.lo < p.hi → q.lo < q.hi → p.hi = q.lo → Consecutive p.lo q.hi [p, q]

namespace Consecutive

variable {lo hi : Int} {l : List (PlanItem D)}

theorem length_le (h : Consecutive lo hi l) : l.length ≤ 2 := by
  cases h with
  | none => exact Nat.zero_le 2
  | one => exact Nat.le_succ 1
  | two => exact Nat.le_refl 2

/-- Each reference is in one item. -/
theorem countP_covers (h : Consecutive lo hi l) (r : Int) :
    l.countP (fun p => decide (p.Covers r)) = if lo ≤ r ∧ r < hi then 1 else 0 := by
  cases h with
  | none => rw [if_neg (by omega)]; rfl
  | @one p hp =>
    show _ = if p.Covers r then 1 else 0
    by_cases hr : p.Covers r
    · rw [if_pos hr]
      simp [hr]
    · rw [if_neg hr]
      simp [hr]
  | @two p q hp hq hpq =>
    by_cases hfirst : p.Covers r
    · have hsecond : ¬ q.Covers r := fun h => by
        have := h.1
        have := hfirst.2
        omega
      rw [if_pos ⟨hfirst.1, by have := hfirst.2; omega⟩]
      simp [hfirst, hsecond]
    · by_cases hsecond : q.Covers r
      · rw [if_pos ⟨by have := hsecond.1; omega, hsecond.2⟩]
        simp [hfirst, hsecond]
      · have hout : ¬ (p.lo ≤ r ∧ r < q.hi) := by
          rintro ⟨hlo, hhi⟩
          rcases Int.lt_or_le r p.hi with hlt | hle
          · exact hfirst ⟨hlo, hlt⟩
          · exact hsecond ⟨by omega, hhi⟩
        rw [if_neg hout]
        simp [hfirst, hsecond]

theorem mem (h : Consecutive lo hi l) {p : PlanItem D} (hp : p ∈ l) :
    lo ≤ p.lo ∧ p.lo < p.hi ∧ p.hi ≤ hi := by
  cases h with
  | none => cases hp
  | one h₁ =>
    rw [List.mem_singleton.mp hp]
    omega
  | two h₁ h₂ h₃ =>
    rcases List.mem_pair.mp hp with rfl | rfl <;> omega

end Consecutive

/-! ### Offsets -/

namespace PlanTable

variable {t : PlanTable} {i : Nat}

/-- A number in 32 bits, read as signed and then as unsigned, … -/
theorem bmod_emod (x : Int) : x.bmod 0x100000000 % 0x100000000 = x % 0x100000000 := Int.bmod_emod

/-- … and the other way round. -/
theorem emod_bmod (x : Int) : (x % 0x100000000).bmod 0x100000000 = x.bmod 0x100000000 :=
  Int.emod_bmod x _

/-- The unsigned copy of a signed number. -/
theorem toNat_toUInt32 (x : Int32) : (x.toUInt32.toNat : Int) = x.toInt % 0x100000000 := by
  have h : x.toInt = (x.toUInt32.toNat : Int).bmod 0x100000000 := BitVec.toInt_eq_toNat_bmod x.toBitVec
  have hlt := x.toUInt32.toNat_lt
  rw [h, bmod_emod, Int.emod_eq_of_lt (Int.natCast_nonneg _) (by omega)]

/-- The references of an expert are counted without overflow. -/
theorem toNat_refs (hmono : t.offsets i ≤ t.offsets (i + 1)) :
    ((t.refs i).toNat : Int) = (t.offsets (i + 1)).toInt - (t.offsets i).toInt := by
  have hle := Int32.le_iff_toInt_le.mp hmono
  have hlo := (t.offsets i).le_toInt
  have hhi := (t.offsets (i + 1)).toInt_lt
  unfold refs
  rw [toNat_toUInt32, Int32.toInt_sub]
  show (((t.offsets (i + 1)).toInt - (t.offsets i).toInt).bmod 0x100000000) % 0x100000000 = _
  rw [bmod_emod]
  exact Int.emod_eq_of_lt (by omega) (by omega)

/-- A place inside the references of an expert is an offset again. -/
theorem start_add (hmono : t.offsets i ≤ t.offsets (i + 1)) {n : UInt32}
    (hn : n.toNat ≤ (t.refs i).toNat) :
    (t.start i + n).toInt32.toInt = (t.offsets i).toInt + n.toNat := by
  have hrefs := toNat_refs hmono
  have hlo := (t.offsets i).le_toInt
  have hhi := (t.offsets (i + 1)).toInt_lt
  have hcopy := toNat_toUInt32 (t.offsets i)
  have h : (t.start i + n).toInt32.toInt = ((t.start i + n).toNat : Int).bmod 0x100000000 :=
    BitVec.toInt_eq_toNat_bmod (t.start i + n).toInt32.toBitVec
  rw [h, UInt32.toNat_add]
  unfold start
  show ((((t.offsets i).toUInt32.toNat + n.toNat) % 0x100000000 : Nat) : Int).bmod 0x100000000 = _
  rw [Int.natCast_emod, Int.natCast_add, hcopy]
  show (((t.offsets i).toInt % 0x100000000 + n.toNat) % 0x100000000).bmod 0x100000000 = _
  rw [Int.emod_add_emod, emod_bmod]
  exact Int.bmod_eq_of_le (by omega) (by omega)

end PlanTable

namespace PlanSettings

theorem chunkRefs_pos (s : PlanSettings D) (refs : UInt32) : 0 < (s.chunkRefs refs).toNat := by
  unfold chunkRefs
  dsimp only
  by_cases hzero : (if s.maxRefs refs < s.selectBatchForRefs refs then s.maxRefs refs
      else s.selectBatchForRefs refs) = 0
  · rw [if_pos hzero]
    exact Nat.one_pos
  · rw [if_neg hzero]
    refine Nat.pos_of_ne_zero fun h => hzero ?_
    exact UInt32.toNat_inj.mp h

section Pieces

variable [Add D] [Div D] [NatCast D] [LT D] [DecidableLT D] [LE D] [DecidableLE D]

omit [Add D] [LE D] [DecidableLE D] in
/-- The full batches of a split group: some of its references. -/
theorem aneRefs_spec (s : PlanSettings D) (refs : UInt32) :
    (s.splitLowUtilTail refs = false ∧ s.aneRefs refs = refs) ∨
      (s.splitLowUtilTail refs = true ∧ 0 < (s.aneRefs refs).toNat ∧
        (s.aneRefs refs).toNat ≤ refs.toNat) := by
  unfold aneRefs
  cases hsplit : s.splitLowUtilTail refs with
  | false => exact Or.inl ⟨rfl, rfl⟩
  | true =>
    right
    have hpos := s.chunkRefs_pos refs
    have hlt : (s.chunkRefs refs).toNat < refs.toNat := by
      unfold splitLowUtilTail at hsplit
      simp only [Bool.and_eq_true, decide_eq_true_eq] at hsplit
      exact UInt32.lt_iff_toNat_lt.mp hsplit.1.2
    -- whole chunks, one of them at least
    have hle : refs.toNat / (s.chunkRefs refs).toNat * (s.chunkRefs refs).toNat ≤ refs.toNat :=
      Nat.div_mul_le_self _ _
    have hone : 0 < refs.toNat / (s.chunkRefs refs).toNat * (s.chunkRefs refs).toNat :=
      Nat.mul_pos (Nat.div_pos (Nat.le_of_lt hlt) hpos) hpos
    have hnat : (refs / s.chunkRefs refs * s.chunkRefs refs).toNat
        = refs.toNat / (s.chunkRefs refs).toNat * (s.chunkRefs refs).toNat := by
      rw [UInt32.toNat_mul, UInt32.toNat_div]
      exact Nat.mod_eq_of_lt (Nat.lt_of_le_of_lt hle refs.toNat_lt)
    rw [if_pos rfl, hnat]
    exact ⟨rfl, hone, hle⟩

/-- **The pieces of an expert** are its references. -/
theorem planPieces_consecutive (s : PlanSettings D) {t : PlanTable} {i : Nat} (hi : t.Valid i)
    (hmono : t.offsets i ≤ t.offsets (i + 1)) :
    Consecutive (t.offsets i).toInt (t.offsets (i + 1)).toInt (s.planPieces t i) := by
  have hrefs := PlanTable.toNat_refs hmono
  have hstart : (t.start i).toInt32.toInt = (t.offsets i).toInt := by
    show (t.offsets i).toUInt32.toInt32.toInt = _
    rw [Int32.toInt32_toUInt32]
  unfold planPieces
  rw [if_neg (not_not.mpr hi)]
  by_cases hzero : t.refs i = 0
  · -- an empty segment has no item
    rw [if_pos hzero]
    rw [hzero] at hrefs
    have hsame : (t.offsets (i + 1)).toInt = (t.offsets i).toInt := by
      have : ((0 : UInt32).toNat : Int) = 0 := rfl
      omega
    rw [hsame]
    exact .none
  rw [if_neg hzero]
  have hne : (t.refs i).toNat ≠ 0 := fun h => hzero (UInt32.toNat_inj.mp h)
  have hhead : (s.headItem t i).lo = (t.offsets i).toInt := hstart
  have hheadHi : (s.headItem t i).hi = (t.offsets i).toInt + (s.aneRefs (t.refs i)).toNat := by
    show (s.headItem t i).lo + _ = _
    rw [hhead]
    rfl
  rcases s.aneRefs_spec (t.refs i) with ⟨hsplit, hall⟩ | ⟨hsplit, hpos, hle⟩
  · -- the expert is one item
    have hone : Consecutive (s.headItem t i).lo (s.headItem t i).hi [s.headItem t i] :=
      .one (by rw [hhead, hheadHi, hall]; omega)
    rw [hhead, hheadHi, hall, hrefs, show (t.offsets i).toInt + ((t.offsets (i + 1)).toInt
      - (t.offsets i).toInt) = (t.offsets (i + 1)).toInt by omega] at hone
    simpa [hsplit, hall, hzero] using hone
  · have hn : s.aneRefs (t.refs i) ≠ 0 := fun h => by
      rw [h] at hpos
      exact Nat.lt_irrefl _ hpos
    have htail : (t.refs i - s.aneRefs (t.refs i)).toNat
        = (t.refs i).toNat - (s.aneRefs (t.refs i)).toNat :=
      UInt32.toNat_sub_of_le _ _ (UInt32.le_iff_toNat_le.mpr hle)
    dsimp only
    rw [if_pos hn, hsplit, if_pos rfl]
    by_cases hfull : t.refs i - s.aneRefs (t.refs i) = 0
    · -- the batches are full
      have hsame : (s.aneRefs (t.refs i)).toNat = (t.refs i).toNat := by
        rw [hfull] at htail
        have : (0 : UInt32).toNat = 0 := rfl
        omega
      have hone : Consecutive (s.headItem t i).lo (s.headItem t i).hi [s.headItem t i] :=
        .one (by rw [hhead, hheadHi]; omega)
      rw [hhead, hheadHi, hsame, hrefs, show (t.offsets i).toInt + ((t.offsets (i + 1)).toInt
        - (t.offsets i).toInt) = (t.offsets (i + 1)).toInt by omega] at hone
      rw [if_neg (not_not.mpr hfull), if_neg hn]
      exact hone
    · rw [if_pos hfull]
      have hmore : (t.refs i - s.aneRefs (t.refs i)).toNat ≠ 0 := fun h => hfull (UInt32.toNat_inj.mp h)
      generalize hq : s.gpuItem t i (t.start i + s.aneRefs (t.refs i)) (t.refs i - s.aneRefs (t.refs i)) true
        = q
      have hqlo : q.lo = (t.offsets i).toInt + (s.aneRefs (t.refs i)).toNat := by
        rw [← hq]
        exact PlanTable.start_add hmono hle
      have hqhi : q.hi = (t.offsets (i + 1)).toInt := by
        unfold PlanItem.hi
        rw [hqlo, ← hq]
        show _ + ((t.refs i - s.aneRefs (t.refs i)).toNat : Int) = _
        omega
      have htwo : Consecutive (s.headItem t i).lo q.hi [s.headItem t i, q] :=
        .two (by rw [hhead, hheadHi]; omega) (by rw [hqlo, hqhi]; omega) (by rw [hheadHi, hqlo])
      rw [hhead, hqhi] at htwo
      exact htwo

/-- An item names its entry, and goes to the ANE only where the settings allow it. -/
structure ItemOf (s : PlanSettings D) (t : PlanTable) (i : Nat) (p : PlanItem D) : Prop where
  valid : t.Valid i
  ui : p.ui = i
  expert : p.expert = t.unique i
  lane : p.lane = .gpu
  eligible : p.aneEligible = true → p.tailSlice = false ∧
    (s.aneChunkBigRefs = true ∨ t.refs i ≤ s.maxRefs (t.refs i)) ∧ s.hybridAneMinRefs ≤ p.refs ∧
    s.aneMinUtil ≤ s.aneUtil (t.refs i) p.refs

theorem itemOf_of_mem {s : PlanSettings D} {t : PlanTable} {i : Nat} {p : PlanItem D}
    (h : p ∈ s.planPieces t i) : ItemOf s t i p := by
  have hgpu : ∀ start refs tailSlice, t.Valid i → ItemOf s t i (s.gpuItem t i start refs tailSlice) :=
    fun start refs tailSlice hi => ⟨hi, rfl, rfl, rfl, fun helig => nomatch helig⟩
  unfold planPieces at h
  split at h
  · cases h
  rename_i hi
  have hi := not_not.mp hi
  split at h
  · cases h
  dsimp only at h
  generalize (if s.splitLowUtilTail (t.refs i) = true then _ else _ : UInt32) = tail at h
  rcases List.mem_append.mp h with h | h
  · split at h
    · rw [List.mem_singleton.mp h]
      refine ⟨hi, rfl, rfl, rfl, fun helig => ⟨rfl, ?_⟩⟩
      simp only [headItem, canChunk, Bool.and_eq_true, Bool.or_eq_true, decide_eq_true_eq] at helig
      exact ⟨helig.1.1, helig.1.2, helig.2⟩
    · cases h
  · split at h
    · rw [List.mem_singleton.mp h]
      exact hgpu _ _ _ hi
    · split at h
      · rw [List.mem_singleton.mp h]
        exact hgpu _ _ _ hi
      · cases h

end Pieces

/-! ### The passes -/

section Passes

variable [Add D] [Div D] [NatCast D] [LT D] [DecidableLT D] [LE D] [DecidableLE D] [Mul D] [BEq D]

omit [Add D] [Div D] [NatCast D] [LE D] [DecidableLE D] [Mul D] in
theorem sortByWork_perm (items : List (PlanItem D)) : (sortByWork items).Perm items := by
  unfold sortByWork
  induction items using List.reverseRecOn with
  | nil => exact List.Perm.refl _
  | append_singleton items key ih =>
    rw [List.foldl_append]
    show (insertByWork (items.foldl insertByWork []) key).Perm _
    generalize items.foldl insertByWork [] = out at ih
    unfold insertByWork
    refine List.perm_middle.trans (List.Perm.trans ?_ (List.perm_append_singleton key items).symm)
    rw [rdropWhile_append_rtakeWhile]
    exact ih.cons key

omit [Div D] [NatCast D] [LE D] [DecidableLE D] [Mul D] [BEq D] in
/-- What dealing one item does: it goes to the GPU as it is, or it is eligible and goes to the ANE. -/
theorem dealLane_cases (l : Lanes D) (p : PlanItem D) :
    ((dealLane l p).ane = l.ane ∧ (dealLane l p).gpu = l.gpu ++ [p]) ∨
      (p.aneEligible = true ∧ (dealLane l p).ane = l.ane ++ [{ p with lane := .ane }] ∧
        (dealLane l p).gpu = l.gpu) := by
  unfold dealLane
  by_cases helig : p.aneEligible = true
  · rw [if_pos helig]
    dsimp only
    generalize (if l.aneLoad < l.gpuLoad + p.gpuCost then _ else _ : D) = makeGpu
    by_cases hless : (if l.aneLoad + p.aneCost < l.gpuLoad then l.gpuLoad
        else l.aneLoad + p.aneCost) < makeGpu
    · rw [if_pos hless]
      exact Or.inr ⟨helig, rfl, rfl⟩
    · rw [if_neg hless]
      exact Or.inl ⟨rfl, rfl⟩
  · rw [if_neg helig]
    exact Or.inl ⟨rfl, rfl⟩

omit [Div D] [LE D] [DecidableLE D] [Mul D] [BEq D] in
/-- Dealing changes the lanes of items only. -/
theorem dealLanes_perm (work : List (PlanItem D)) :
    (((dealLanes work).ane ++ (dealLanes work).gpu).map PlanItem.undealt).Perm
      (work.map PlanItem.undealt) := by
  unfold dealLanes
  induction work using List.reverseRecOn with
  | nil => exact List.Perm.refl _
  | append_singleton work p ih =>
    rw [List.foldl_append]
    show (((dealLane (work.foldl dealLane _) p).ane ++ (dealLane (work.foldl dealLane _) p).gpu).map
      PlanItem.undealt).Perm _
    generalize work.foldl dealLane ⟨((0 : Nat) : D), ((0 : Nat) : D), [], []⟩ = l at ih
    have hwork : (work ++ [p]).map PlanItem.undealt = work.map PlanItem.undealt ++ [p.undealt] :=
      List.map_append
    rcases dealLane_cases l p with ⟨hane, hgpu⟩ | ⟨-, hane, hgpu⟩
    · rw [hane, hgpu, ← List.append_assoc, List.map_append, hwork]
      exact ih.append_right _
    · rw [hane, hgpu, List.append_assoc, List.map_append, List.singleton_append, List.map_cons, hwork]
      refine List.perm_middle.trans (List.Perm.trans ?_ (List.perm_append_singleton _ _).symm)
      rw [← List.map_append]
      exact ih.cons _

omit [Div D] [LE D] [DecidableLE D] [Mul D] [BEq D] in
/-- Only what is eligible is dealt to the ANE. -/
theorem eligible_of_dealt {work : List (PlanItem D)} (hwork : ∀ p ∈ work, p.lane = .gpu) :
    ∀ p ∈ (dealLanes work).ane ++ (dealLanes work).gpu, p.lane = .ane → p.aneEligible = true := by
  have hboth : (∀ p ∈ (dealLanes work).ane, p.aneEligible = true) ∧
      ∀ p ∈ (dealLanes work).gpu, p.lane = .gpu := by
    unfold dealLanes
    induction work using List.reverseRecOn with
    | nil => exact ⟨nofun, nofun⟩
    | append_singleton work p ih =>
      obtain ⟨hane, hgpu⟩ := ih fun q hq => hwork q (List.mem_append_left _ hq)
      have hp : p.lane = .gpu := hwork p (List.mem_append_right _ List.mem_cons_self)
      rw [List.foldl_append]
      show (∀ q ∈ (dealLane (work.foldl dealLane _) p).ane, _) ∧
        ∀ q ∈ (dealLane (work.foldl dealLane _) p).gpu, _
      generalize work.foldl dealLane ⟨((0 : Nat) : D), ((0 : Nat) : D), [], []⟩ = l at hane hgpu
      rcases dealLane_cases l p with ⟨h₁, h₂⟩ | ⟨helig, h₁, h₂⟩
      · rw [h₁, h₂]
        refine ⟨hane, fun q hq => ?_⟩
        rcases List.mem_append.mp hq with hq | hq
        · exact hgpu q hq
        · rw [List.mem_singleton.mp hq]
          exact hp
      · rw [h₁, h₂]
        refine ⟨fun q hq => ?_, hgpu⟩
        rcases List.mem_append.mp hq with hq | hq
        · exact hane q hq
        · rw [List.mem_singleton.mp hq]
          exact helig
  intro p hp hlane
  rcases List.mem_append.mp hp with hp | hp
  · exact hboth.1 p hp
  · rw [hboth.2 p hp] at hlane
    cases hlane

omit [Div D] [NatCast D] [LE D] [DecidableLE D] [Mul D] [BEq D] in
/-- The inner loop moves items to the plan. -/
theorem coverLoop_append (aneDone : Bool) (cover covered : D) (gpu out : List (PlanItem D)) :
    (coverLoop aneDone cover covered gpu out).2 ++ (coverLoop aneDone cover covered gpu out).1
      = out ++ gpu := by
  induction gpu generalizing covered out with
  | nil => rfl
  | cons p gpu ih =>
    unfold coverLoop
    split
    · rw [ih, List.append_assoc]
      rfl
    · rfl

omit [Div D] [LE D] [DecidableLE D] [BEq D] in
/-- **The last loop** ends, and orders the items of the two lanes. -/
theorem mergeLoop_perm (s : PlanSettings D) {fuel : Nat} {ane : List (PlanItem D)}
    (hfuel : ane.length < fuel) (gpu out : List (PlanItem D)) :
    ∃ plan, s.mergeLoop fuel ane gpu out = some plan ∧ plan.Perm (out ++ (ane ++ gpu)) := by
  have hdone : ∀ fuel out, s.mergeLoop fuel [] [] out = some out := by
    intro fuel out
    cases fuel <;> rfl
  induction ane generalizing fuel gpu out with
  | nil =>
    obtain ⟨fuel, rfl⟩ : ∃ n, fuel = n + 1 := ⟨fuel - 1, by omega⟩
    cases gpu with
    | nil => exact ⟨out, hdone _ _, by simp⟩
    | cons q gpu =>
      refine ⟨_, ?_, List.Perm.refl _⟩
      show s.mergeLoop fuel [] [] _ = _
      rw [hdone, coverLoop_append]
      simp
  | cons p ane ih =>
    obtain ⟨fuel, rfl⟩ : ∃ n, fuel = n + 1 := ⟨fuel - 1, by omega⟩
    have hcover := coverLoop_append ane.isEmpty (p.aneCost * s.gpuCover) ((0 : Nat) : D) gpu (out ++ [p])
    unfold mergeLoop
    generalize coverLoop ane.isEmpty (p.aneCost * s.gpuCover) ((0 : Nat) : D) gpu (out ++ [p]) = moved
      at hcover
    obtain ⟨rest, out'⟩ := moved
    dsimp only at hcover ⊢
    split
    · -- that was the last ANE item
      rename_i hlast
      obtain rfl := List.isEmpty_iff.mp hlast
      exact ⟨_, hdone _ _, by rw [hcover]; simp⟩
    · obtain ⟨plan, hplan, hperm⟩ := ih (Nat.lt_of_succ_lt_succ hfuel) rest out'
      refine ⟨plan, hplan, hperm.trans ?_⟩
      calc out' ++ (ane ++ rest)
        List.Perm _ (out' ++ (rest ++ ane)) := List.perm_append_comm.append_left _
        _ = out ++ [p] ++ gpu ++ ane := by rw [← List.append_assoc, hcover]
        List.Perm _ (out ++ [p] ++ (ane ++ gpu)) := by
          rw [List.append_assoc]
          exact List.perm_append_comm.append_left _
        _ = out ++ (p :: ane ++ gpu) := by simp

/-! ### The plan -/

omit [Mul D] [BEq D] in
/-- The items of one entry, among those of all. -/
theorem countP_planWork (s : PlanSettings D) (t : PlanTable) {i : Nat} (hi : i < t.nUnique)
    (q : PlanItem D → Bool) :
    (s.planWork t).countP (fun p => decide (p.ui = i) && q p) = (s.planPieces t i).countP q := by
  have hone : ∀ j, (s.planPieces t j).countP (fun p => decide (p.ui = i) && q p)
      = if j = i then (s.planPieces t i).countP q else 0 := by
    intro j
    by_cases hji : j = i
    · subst hji
      rw [if_pos rfl]
      exact List.countP_congr fun p hp => by simp [(itemOf_of_mem hp).ui]
    · rw [if_neg hji, List.countP_eq_zero]
      intro p hp
      simp [(itemOf_of_mem hp).ui, hji]
  have hsum : ∀ n, ((List.range n).flatMap (s.planPieces t)).countP (fun p => decide (p.ui = i) && q p)
      = if i < n then (s.planPieces t i).countP q else 0 := by
    intro n
    induction n with
    | zero => rfl
    | succ n ih =>
      rw [List.range_succ, List.flatMap_append, List.countP_append, ih]
      simp only [List.flatMap_cons, List.flatMap_nil, List.append_nil, hone]
      by_cases hin : i < n
      · rw [if_pos hin, if_neg (by omega), if_pos (by omega)]
        rfl
      · by_cases heq : n = i
        · rw [if_neg hin, if_pos heq, if_pos (by omega), Nat.zero_add]
        · rw [if_neg hin, if_neg heq, if_neg (by omega)]
  unfold planWork
  rw [hsum, if_pos hi]

/-- The plan is the items of the table in another order, some of them dealt to the ANE. -/
theorem overlapPlan_spec (s : PlanSettings D) (t : PlanTable) :
    ∃ plan, s.overlapPlan t = some plan ∧ (plan.map PlanItem.undealt).Perm (s.planWork t) ∧
      ∀ p ∈ plan, p.lane = .ane → p.aneEligible = true := by
  have hgpu : ∀ p ∈ s.planWork t, p.lane = .gpu := by
    intro p hp
    obtain ⟨i, -, hmem⟩ := List.mem_flatMap.mp hp
    exact (itemOf_of_mem hmem).lane
  have hsorted := sortByWork_perm (s.planWork t)
  have hdealt := dealLanes_perm (sortByWork (s.planWork t))
  have hlen : (dealLanes (sortByWork (s.planWork t))).ane.length < (sortByWork (s.planWork t)).length + 1 := by
    have := hdealt.length_eq
    simp only [List.length_map, List.length_append] at this
    omega
  obtain ⟨plan, hplan, hperm⟩ := s.mergeLoop_perm hlen (dealLanes (sortByWork (s.planWork t))).gpu []
  refine ⟨plan, hplan, ?_, fun p hp => ?_⟩
  · have hsame : (s.planWork t).map PlanItem.undealt = s.planWork t := by
      refine (List.map_congr_left fun p hp => ?_).trans (List.map_id _)
      obtain ⟨ui, start, refs, expert, lane, _⟩ := p
      obtain rfl : lane = .gpu := hgpu _ hp
      rfl
    calc (plan.map PlanItem.undealt)
      List.Perm _ _ := hperm.map _
      List.Perm _ _ := hdealt
      List.Perm _ _ := hsorted.map _
      _ = s.planWork t := hsame
  · exact eligible_of_dealt (fun q hq => hgpu q (hsorted.mem_iff.mp hq)) p (hperm.mem_iff.mp hp)

/-- **The plan** is made for every table whose offsets do not decrease and every setting: it covers
    each reference of each valid expert once and nothing else, under the entry and the expert it
    belongs to, with two items an entry at most, and only what the settings allow is on the ANE. -/
theorem overlap_plan_partitions (s : PlanSettings D) (t : PlanTable)
    (hmono : ∀ i < t.nUnique, t.offsets i ≤ t.offsets (i + 1)) :
    ∃ plan, s.overlapPlan t = some plan ∧
      (∀ i < t.nUnique, ∀ r, plan.countP (fun p => decide (p.ui = i) && decide (p.Covers r)) =
        if t.Valid i ∧ (t.offsets i).toInt ≤ r ∧ r < (t.offsets (i + 1)).toInt then 1 else 0) ∧
      (∀ p ∈ plan, p.ui < t.nUnique ∧ t.Valid p.ui ∧ p.expert = t.unique p.ui ∧
        (t.offsets p.ui).toInt ≤ p.lo ∧ p.lo < p.hi ∧ p.hi ≤ (t.offsets (p.ui + 1)).toInt) ∧
      (∀ i < t.nUnique, plan.countP (fun p => decide (p.ui = i)) ≤ 2) ∧
      ∀ p ∈ plan, p.lane = .ane → p.tailSlice = false ∧
        (s.aneChunkBigRefs = true ∨ t.refs p.ui ≤ s.maxRefs (t.refs p.ui)) ∧
        s.hybridAneMinRefs ≤ p.refs ∧ s.aneMinUtil ≤ s.aneUtil (t.refs p.ui) p.refs := by
  obtain ⟨plan, hplan, hperm, helig⟩ := s.overlapPlan_spec t
  -- counting does not see the lanes
  have hcount : ∀ i < t.nUnique, ∀ q : PlanItem D → Bool, (∀ p, q p.undealt = q p) →
      plan.countP (fun p => decide (p.ui = i) && q p) = (s.planPieces t i).countP q := by
    intro i hi q hq
    rw [← s.countP_planWork t hi q, ← hperm.countP_eq, List.countP_map]
    refine List.countP_congr fun p _ => ?_
    show (decide (p.ui = i) && q p) = true ↔ (decide (p.ui = i) && q p.undealt) = true
    rw [hq]
  have hitem : ∀ p ∈ plan, ∃ i < t.nUnique, p.undealt ∈ s.planPieces t i := by
    intro p hp
    have hmem := hperm.mem_iff.mp (List.mem_map_of_mem (f := PlanItem.undealt) hp)
    obtain ⟨i, hi, hpiece⟩ := List.mem_flatMap.mp hmem
    exact ⟨i, List.mem_range.mp hi, hpiece⟩
  refine ⟨plan, hplan, fun i hi r => ?_, fun p hp => ?_, fun i hi => ?_, fun p hp hlane => ?_⟩
  · rw [hcount i hi _ fun _ => rfl]
    by_cases hvalid : t.Valid i
    · rw [(s.planPieces_consecutive hvalid (hmono i hi)).countP_covers r]
      simp [hvalid]
    · rw [if_neg fun h => hvalid h.1]
      simp [planPieces, hvalid]
  · obtain ⟨i, hi, hpiece⟩ := hitem p hp
    have hof := itemOf_of_mem hpiece
    obtain rfl : p.ui = i := hof.ui
    have hrange := (s.planPieces_consecutive hof.valid (hmono p.ui hi)).mem hpiece
    exact ⟨hi, hof.valid, hof.expert, hrange⟩
  · have hlen : (s.planPieces t i).length ≤ 2 := by
      by_cases hvalid : t.Valid i
      · exact (s.planPieces_consecutive hvalid (hmono i hi)).length_le
      · simp [planPieces, hvalid]
    have := hcount i hi (fun _ => true) fun _ => rfl
    simp only [Bool.and_true, List.countP_true] at this
    rw [this]
    exact hlen
  · obtain ⟨i, hi, hpiece⟩ := hitem p hp
    have hof := itemOf_of_mem hpiece
    obtain rfl : p.ui = i := hof.ui
    exact hof.eligible (helig p hp hlane)

end Passes

end PlanSettings

end Plan

/-- Batches of four references, filled to the last one. -/
def sampleSettings : PlanSettings Nat where
  hybridAneMinRefs := 1
  aneBatches := [4]
  aneMaxRefs := none
  aneChunkBigRefs := true
  aneRelSpeed := 2
  aneCallRefs := 0
  ssdRefs := 64
  aneMinUtil := 1
  gpuCover := 1
  never := 1000000

/-- Expert 3 has six references and expert 5 three. -/
def samplePlanTable : PlanTable where
  nExpert := 8
  nUnique := 2
  unique := fun i => [3, 5].getD i 0
  offsets := fun i => [0, 6, 9].getD i 9
  slotCacheExpert := none

theorem overlap_plan_partitions_sample :
    ∃ plan, sampleSettings.overlapPlan samplePlanTable = some plan ∧
      (∀ i < 2, ∀ r, plan.countP (fun p => decide (p.ui = i) && decide (p.Covers r)) =
        if samplePlanTable.Valid i ∧ (samplePlanTable.offsets i).toInt ≤ r ∧
          r < (samplePlanTable.offsets (i + 1)).toInt then 1 else 0) ∧
      (∀ p ∈ plan, p.ui < 2 ∧ samplePlanTable.Valid p.ui ∧ p.expert = samplePlanTable.unique p.ui ∧
        (samplePlanTable.offsets p.ui).toInt ≤ p.lo ∧ p.lo < p.hi ∧
        p.hi ≤ (samplePlanTable.offsets (p.ui + 1)).toInt) ∧
      (∀ i < 2, plan.countP (fun p => decide (p.ui = i)) ≤ 2) ∧
      ∀ p ∈ plan, p.lane = .ane → p.tailSlice = false ∧
        (sampleSettings.aneChunkBigRefs = true ∨
          samplePlanTable.refs p.ui ≤ sampleSettings.maxRefs (samplePlanTable.refs p.ui)) ∧
        sampleSettings.hybridAneMinRefs ≤ p.refs ∧
        sampleSettings.aneMinUtil ≤ sampleSettings.aneUtil (samplePlanTable.refs p.ui) p.refs :=
  PlanSettings.overlap_plan_partitions sampleSettings samplePlanTable (by decide)

/-- The split expert is on both lanes. -/
example : (sampleSettings.overlapPlan samplePlanTable).map
    (List.map fun p => (p.expert, p.start, p.refs, p.lane)) =
      some [(3, 0, 4, .ane), (5, 6, 3, .gpu), (3, 4, 2, .gpu)] := by decide +kernel

end DS4.FlashMoe
