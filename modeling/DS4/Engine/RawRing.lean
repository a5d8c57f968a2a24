import DS4.Lib.Ring

namespace DS4.Engine.RawRing

/-!
# Engine — the ring of raw rows

A batch of rows is stored in the ring of a layer, and is then attended together with the rows in front of it
that are in the window of its tokens.

* `effectivePrefillCap`, `rawSpanForBatch`, `rawStartForSpan` — the longest chunk, and the rows that are attended.
* `Step`, `run` — prefill chunks and single tokens, one after the other.
* `span_covers` — the rows that are attended are all that the window needs; `run_window` — and they are there.
* `raw_ring_sound` — both, for every batch of a run.
-/

open DS4.Lib

/-! ### The graph -/

def UINT32_MAX : Nat := 0xffffffff

/-- What a graph has of its ring. -/
structure Graph where
  rawCap     : Nat
  rawWindow  : Nat
  prefillCap : Nat
  nSwa       : Nat
deriving DecidableEq, Repr

variable (g : Graph)

def Graph.window : Nat := if g.rawWindow = 0 then g.nSwa else g.rawWindow

/-- `metal_graph_flash_moe_prefill_chunk_cap`: the slot bank does not limit a chunk. -/
def flashMoePrefillChunkCap (_ : Graph) : Nat := UINT32_MAX

/-- `metal_graph_effective_prefill_cap` -/
def effectivePrefillCap : Nat :=
  if g.prefillCap = 0 then 0
  else
    let cap := if flashMoePrefillChunkCap g < g.prefillCap then flashMoePrefillChunkCap g else g.prefillCap
    let rawChunkCap := if g.window < g.rawCap then g.rawCap - g.window else 1
    let cap := if rawChunkCap < cap then rawChunkCap else cap
    if cap = 0 then 1 else cap

/-- `metal_graph_raw_span_for_batch` -/
def rawSpanForBatch (pos0 nTokens : Nat) : Nat :=
  if g.rawCap = 0 ∨ nTokens = 0 then 0
  else
    let lastPos := (pos0 + nTokens - 1) % 0x100000000
    let needed := nTokens + if g.window ≠ 0 then (if nTokens = 1 then g.window - 1 else g.window) else 0
    let available := lastPos + 1
    let needed := if available < needed then available else needed
    let needed := if g.rawCap < needed then g.rawCap else needed
    needed % 0x100000000

/-- `metal_graph_raw_start_for_span` -/
def rawStartForSpan (lastPos nRaw : Nat) : Nat :=
  if g.rawCap = 0 ∨ nRaw = 0 then 0
  else (lastPos + 1 + 0x100000000 - nRaw) % 0x100000000 % g.rawCap

/-! ### Runs -/

/-- A prefill chunk, or a single token. -/
inductive Step
  | prefill (nTokens : Nat)
  | decode
deriving DecidableEq, Repr

def Step.tokens : Step → Nat
  | .prefill nTokens => nTokens
  | .decode          => 1

variable {α : Type} (row : Nat → α)

/-- `ds4_gpu_store_raw_kv_batch_tensor`: the rows of a batch go to the slots of their positions. -/
def storeBatch (pos0 nTokens : Nat) (ring : Nat → α) : Nat → α :=
  fill g.rawCap pos0 (fun i => row (pos0 + i)) nTokens ring

/-- The next position, and the ring. -/
def run (steps : List Step) (pos : Nat) (ring : Nat → α) : Nat × (Nat → α) :=
  steps.foldl (fun s step => (s.1 + step.tokens, storeBatch g row s.1 step.tokens s.2)) (pos, ring)

/-- A step that the code takes: no chunk is empty or longer than the cap, and positions are 32-bit numbers. -/
def Step.Admitted (pos : Nat) (step : Step) : Prop :=
  (∀ nTokens, step = .prefill nTokens → 0 < nTokens ∧ nTokens ≤ effectivePrefillCap g) ∧
    pos + step.tokens ≤ 0x100000000

/-- What a row held before the run, or was given in it. -/
def heldFrom (start : Nat) (ring : Nat → α) (p : Nat) : α := if p < start then ring (p % g.rawCap) else row p

variable {g row}

/-! ### The rows that are attended -/

variable {pos0 nTokens : Nat}

theorem effectivePrefillCap_le (hcap : g.window + 1 ≤ g.rawCap) : effectivePrefillCap g ≤ g.rawCap - g.window := by
  have hlt : g.window < g.rawCap := hcap
  unfold effectivePrefillCap
  dsimp only
  rw [if_pos hlt]
  split_ifs <;> omega

theorem Step.Admitted.tokens {pos : Nat} {step : Step} (h : step.Admitted g pos) (hcap : g.window + 1 ≤ g.rawCap) :
    0 < step.tokens ∧ step.tokens + g.window ≤ g.rawCap := by
  cases step with
  | prefill nTokens =>
    obtain ⟨hpos, hle⟩ := h.1 nTokens rfl
    have hcap' := effectivePrefillCap_le hcap
    refine ⟨hpos, ?_⟩
    show nTokens + g.window ≤ g.rawCap
    omega
  | decode => exact ⟨Nat.one_pos, by rw [Nat.add_comm]; exact hcap⟩

/-- The rows that are attended: the batch and a window in front of it, as far as there are positions. -/
theorem rawSpan_eq (hcap : g.window + 1 ≤ g.rawCap) (hcap32 : g.rawCap ≤ UINT32_MAX) (hpos : 0 < nTokens)
    (hroom : nTokens + g.window ≤ g.rawCap) (h32 : pos0 + nTokens ≤ 0x100000000) :
    rawSpanForBatch g pos0 nTokens =
      min (pos0 + nTokens) (if nTokens = 1 then max 1 g.window else nTokens + g.window) := by
  have hno : ¬ (g.rawCap = 0 ∨ nTokens = 0) := by omega
  have hlast : (pos0 + nTokens - 1) % 0x100000000 + 1 = pos0 + nTokens := by
    rw [Nat.mod_eq_of_lt (by omega)]
    omega
  unfold UINT32_MAX at hcap32
  unfold rawSpanForBatch
  dsimp only
  rw [if_neg hno, hlast]
  split_ifs <;> omega

/-- **The window** of every token is among the rows that are attended, and none lies behind the last token. -/
theorem span_covers (hcap : g.window + 1 ≤ g.rawCap) (hcap32 : g.rawCap ≤ UINT32_MAX) (hpos : 0 < nTokens)
    (hroom : nTokens + g.window ≤ g.rawCap) (h32 : pos0 + nTokens ≤ 0x100000000) :
    rawSpanForBatch g pos0 nTokens ≤ pos0 + nTokens ∧ rawSpanForBatch g pos0 nTokens ≤ g.rawCap ∧
      0 < rawSpanForBatch g pos0 nTokens ∧
      ∀ q p, pos0 ≤ q → q < pos0 + nTokens → p ≤ q → q < p + g.window →
        pos0 + nTokens - rawSpanForBatch g pos0 nTokens ≤ p := by
  rw [rawSpan_eq hcap hcap32 hpos hroom h32]
  refine ⟨Nat.min_le_left _ _, ?_, ?_, fun q p hq hqn hp hpw => ?_⟩
  · split_ifs <;> omega
  · split_ifs <;> omega
  · split_ifs <;> omega

/-- **The start** of the rows that are attended is the slot of the first one. -/
theorem rawStart_eq {nRaw : Nat} (hcap : 0 < g.rawCap) (hpos : 0 < nTokens) (hraw : 0 < nRaw)
    (hle : nRaw ≤ pos0 + nTokens) (h32 : pos0 + nTokens ≤ 0x100000000) :
    rawStartForSpan g (pos0 + nTokens - 1) nRaw = (pos0 + nTokens - nRaw) % g.rawCap := by
  have hno : ¬ (g.rawCap = 0 ∨ nRaw = 0) := by omega
  have hfirst : (pos0 + nTokens - 1 + 1 + 0x100000000 - nRaw) % 0x100000000 = pos0 + nTokens - nRaw := by
    have hsplit : pos0 + nTokens - 1 + 1 + 0x100000000 - nRaw = pos0 + nTokens - nRaw + 0x100000000 := by omega
    rw [hsplit, Nat.add_mod_right, Nat.mod_eq_of_lt (by omega)]
  unfold rawStartForSpan
  rw [if_neg hno, hfirst]

/-! ### The rows are there -/

/-- **A step** stores the next rows. -/
theorem storeBatch_window {pos : Nat} {held ring : Nat → α} (h : Window g.rawCap g.rawCap pos held ring)
    (hheld : ∀ p, pos ≤ p → held p = row p) (nTokens : Nat) :
    Window g.rawCap g.rawCap (pos + nTokens) held (storeBatch g row pos nTokens ring) := by
  unfold storeBatch
  induction nTokens with
  | zero => exact h
  | succ k ih =>
    refine ih.push (Nat.le_refl _) ?_ fun i hi => ?_
    · show (if (pos + k) % g.rawCap = (pos + k) % g.rawCap then row (pos + k) else _) = held (pos + k)
      rw [if_pos rfl, hheld _ (Nat.le_add_right pos k)]
    · exact if_neg hi

theorem run_cons (step : Step) (steps : List Step) (pos : Nat) (ring : Nat → α) :
    run g row (step :: steps) pos ring =
      run g row steps (pos + step.tokens) (storeBatch g row pos step.tokens ring) := rfl

/-- **A run** keeps the last rows of all positions, the ones before it included. -/
theorem run_window {start pos : Nat} {ring₀ ring : Nat → α} (steps : List Step) (hstart : start ≤ pos)
    (h : Window g.rawCap g.rawCap pos (heldFrom g row start ring₀) ring) :
    start ≤ (run g row steps pos ring).1 ∧
      Window g.rawCap g.rawCap (run g row steps pos ring).1 (heldFrom g row start ring₀)
        (run g row steps pos ring).2 := by
  induction steps generalizing pos ring with
  | nil => exact ⟨hstart, h⟩
  | cons step steps ih =>
    rw [run_cons]
    refine ih (Nat.le_trans hstart (Nat.le_add_right _ _)) (storeBatch_window h (fun _ hp => ?_) step.tokens)
    exact if_neg (Nat.not_lt.mpr (Nat.le_trans hstart hp))

theorem start_window (start : Nat) (ring : Nat → α) :
    Window g.rawCap g.rawCap start (heldFrom g row start ring) ring := fun _ hp _ => (if_pos hp).symm

/-- **Every batch of a run** is attended with consecutive rows that end at its last position: they hold the window of
    every token of the batch, and each one what it was given last. -/
theorem raw_ring_sound (hcap : g.window + 1 ≤ g.rawCap) (hcap32 : g.rawCap ≤ UINT32_MAX)
    (row : Nat → α) (start : Nat) (ring₀ : Nat → α) (steps : List Step) (step : Step)
    (hstep : step.Admitted g (run g row steps start ring₀).1) :
    let pos0 := (run g row steps start ring₀).1
    let last := pos0 + step.tokens - 1
    let ring := storeBatch g row pos0 step.tokens (run g row steps start ring₀).2
    let nRaw := rawSpanForBatch g pos0 step.tokens
    let rawStart := rawStartForSpan g last nRaw
    nRaw ≤ last + 1 ∧
      (∀ i < nRaw, (rawStart + i) % g.rawCap = (last + 1 - nRaw + i) % g.rawCap ∧
        ring ((rawStart + i) % g.rawCap) = heldFrom g row start ring₀ (last + 1 - nRaw + i)) ∧
      ∀ q p, pos0 ≤ q → q ≤ last → p ≤ q → q < p + g.window → last + 1 - nRaw ≤ p ∧ p ≤ last := by
  intro pos0 last ring nRaw rawStart
  obtain ⟨hpos, hroom⟩ := hstep.tokens hcap
  have h32 : pos0 + step.tokens ≤ 0x100000000 := hstep.2
  have hlast : last + 1 = pos0 + step.tokens := Nat.sub_add_cancel (Nat.le_trans hpos (Nat.le_add_left _ _))
  obtain ⟨hspan, hring, hsome, hcovers⟩ := span_covers hcap hcap32 hpos hroom h32
  obtain ⟨hstart, hkept⟩ : start ≤ pos0 ∧ Window g.rawCap g.rawCap pos0 (heldFrom g row start ring₀) _ :=
    run_window steps (Nat.le_refl start) (start_window start ring₀)
  have hwindow : Window g.rawCap g.rawCap (pos0 + step.tokens) (heldFrom g row start ring₀) ring :=
    storeBatch_window hkept (fun _ hp => if_neg (Nat.not_lt.mpr (Nat.le_trans hstart hp))) step.tokens
  have hfirst : rawStart = (last + 1 - nRaw) % g.rawCap := by
    rw [hlast]
    exact rawStart_eq (by omega) hpos hsome hspan h32
  have hslot : ∀ i, (rawStart + i) % g.rawCap = (last + 1 - nRaw + i) % g.rawCap := by
    intro i
    rw [hfirst, Nat.mod_add_mod]
  refine ⟨hlast ▸ hspan, fun i hi => ⟨hslot i, ?_⟩, fun q p hq hqn hp hpw => ⟨?_, by omega⟩⟩
  · have hnRaw : nRaw ≤ pos0 + step.tokens := hspan
    have hnCap : nRaw ≤ g.rawCap := hring
    rw [hslot]
    exact hwindow _ (by omega) (by omega)
  · rw [hlast]
    exact hcovers q p hq (by omega) hp hpw

theorem raw_ring_sound_sample :
    let g : Graph := ⟨8, 4, 16, 128⟩
    let pos0 := (run g id [.prefill 4, .decode] 3 fun _ => 0).1
    rawSpanForBatch g pos0 3 ≤ pos0 + 3 - 1 + 1 :=
  (@raw_ring_sound ⟨8, 4, 16, 128⟩ _ (by decide) (by decide) id 3 (fun _ => 0) [.prefill 4, .decode] (.prefill 3)
    ⟨fun _ h => Step.prefill.inj h ▸ by decide, by decide⟩).1

end DS4.Engine.RawRing
