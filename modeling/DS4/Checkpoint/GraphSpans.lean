import DS4.Checkpoint.Graph
import DS4.Checkpoint.Stream
import DS4.Lib.Ring

namespace DS4.Checkpoint

/-!
# Session payloads — where the graph keeps a checkpoint

The live rows of the raw ring are spans of its tensor, one a row; everything else is the start of
its tensor.  Writer and reader go through the same list of spans, with the ring of the session
they work on.

* `bufSpans` — the spans of a buffer; `bodySpans_pairwise`, `bodySpans_fit`.
* `GraphSession.WellFormed`, `GraphSession.Valid` — what creating the session sets up, and what
  holds of a valid checkpoint.
* `GraphSession.content` — what a payload of the session says.
-/

open DS4.Lib

variable (sh : Shape) (cg : CtxGrow)

/-! ### Spans -/

/-- The raw rows from position `first` on, in a ring of `rawCap` rows. -/
def rawSpans (rawCap first rawLive il : Nat) : List (Span Buffer) :=
  (List.range rawLive).map fun r => ⟨.rawKv il, (first + r) % rawCap * sh.rowBytes, sh.rowBytes⟩

/-- The live bytes of a buffer. -/
def bufSpans (rawCap first rawLive : Nat) (nComp nIndexComp : Nat → Nat) :
    Buffer → List (Span Buffer)
  | .rawKv il => rawSpans sh rawCap first rawLive il
  | b         => [⟨b, 0, liveBytes sh rawLive nComp nIndexComp b⟩]

/-- All spans of a payload, in order. -/
def bodySpans (rawCap first rawLive : Nat) (nComp nIndexComp : Nat → Nat) : List (Span Buffer) :=
  (bodyBuffers sh).flatMap (bufSpans sh rawCap first rawLive nComp nIndexComp)

variable {sh} {rawCap first rawLive : Nat} {nComp nIndexComp : Nat → Nat}

theorem buf_of_mem_bufSpans {b : Buffer} {s : Span Buffer}
    (h : s ∈ bufSpans sh rawCap first rawLive nComp nIndexComp b) : s.buf = b := by
  cases b with
  | rawKv il =>
    obtain ⟨r, -, rfl⟩ := List.mem_map.mp h
    rfl
  | _ =>
    obtain rfl := List.mem_singleton.mp h
    rfl

theorem sum_len_bufSpans (b : Buffer) :
    ((bufSpans sh rawCap first rawLive nComp nIndexComp b).map Span.len).sum =
      liveBytes sh rawLive nComp nIndexComp b := by
  cases b with
  | rawKv il =>
    show ((rawSpans sh rawCap first rawLive il).map Span.len).sum = rawLive * sh.rowBytes
    rw [rawSpans, List.map_map]
    show ((List.range rawLive).map fun _ => sh.rowBytes).sum = _
    rw [List.map_const', List.sum_replicate_nat, List.length_range]
  | _ => exact Nat.add_zero _

/-- Rows of one window are in different slots. -/
theorem rawSpans_pairwise (h : rawLive ≤ rawCap) (il : Nat) :
    (rawSpans sh rawCap first rawLive il).Pairwise Span.Disjoint := by
  refine List.pairwise_map.mpr (List.pairwise_lt_range.imp_of_mem fun {i j} _ hj hij => ?_)
  have hjl := List.mem_range.mp hj
  have hne : (first + i) % rawCap ≠ (first + j) % rawCap := slot_ne (by omega) (by omega)
  -- different rows of the tensor do not overlap
  refine Or.inr ?_
  dsimp only
  obtain hlt | hlt := Nat.lt_or_gt_of_ne hne
  · left
    calc (first + i) % rawCap * sh.rowBytes + sh.rowBytes
        = ((first + i) % rawCap + 1) * sh.rowBytes := (Nat.succ_mul _ _).symm
      _ ≤ (first + j) % rawCap * sh.rowBytes := Nat.mul_le_mul_right _ hlt
  · right
    calc (first + j) % rawCap * sh.rowBytes + sh.rowBytes
        = ((first + j) % rawCap + 1) * sh.rowBytes := (Nat.succ_mul _ _).symm
      _ ≤ (first + i) % rawCap * sh.rowBytes := Nat.mul_le_mul_right _ hlt

/-- **The spans of a payload are disjoint.** -/
theorem bodySpans_pairwise (h : rawLive ≤ rawCap) :
    (bodySpans sh rawCap first rawLive nComp nIndexComp).Pairwise Span.Disjoint := by
  refine List.pairwise_flatMap.mpr ⟨fun b _ => ?_, (bodyBuffers_nodup sh).imp fun {b c} hbc => ?_⟩
  · cases b with
    | rawKv il => exact rawSpans_pairwise h il
    | _ => exact List.pairwise_singleton _ _
  · intro s hs t ht
    left
    rw [buf_of_mem_bufSpans hs, buf_of_mem_bufSpans ht]
    exact hbc

/-- **The spans fit** tensors with room for the rows. -/
theorem bodySpans_fit {compCap : Nat → Nat} {buf : Buffer → List UInt8}
    (hbuf : HasBuffers sh rawCap compCap buf) (hraw : rawLive ≤ rawCap)
    (hc : ∀ il < sh.nLayer, nComp il ≤ compCap il) (hi : ∀ il < sh.nLayer, nIndexComp il ≤ compCap il)
    {s : Span Buffer} (hs : s ∈ bodySpans sh rawCap first rawLive nComp nIndexComp) :
    s.Fits buf := by
  obtain ⟨b, hb, hs⟩ := List.mem_flatMap.mp hs
  have hlen := hbuf b hb
  have hlayer := (mem_bodyBuffers sh).mp hb
  unfold Span.Fits
  rw [buf_of_mem_bufSpans hs, hlen]
  cases b with
  | rawKv il =>
    obtain ⟨r, hr, rfl⟩ := List.mem_map.mp hs
    have hlt := List.mem_range.mp hr
    have hslot : (first + r) % rawCap < rawCap := Nat.mod_lt _ (by omega)
    calc (first + r) % rawCap * sh.rowBytes + sh.rowBytes
        = ((first + r) % rawCap + 1) * sh.rowBytes := (Nat.succ_mul _ _).symm
      _ ≤ rawCap * sh.rowBytes := Nat.mul_le_mul_right _ hslot
  | _ =>
    obtain rfl := List.mem_singleton.mp hs
    rw [Nat.zero_add]
    exact liveBytes_mono hraw (hc _ hlayer) (hi _ hlayer)

/-! ### The session -/

namespace GraphSession

/-- What `metal_graph_alloc_raw_cap` and growth set up. -/
structure WellFormed (sh : Shape) (cg : CtxGrow) (g : GraphSession) : Prop where
  ctx_pos : 0 < g.ctxSize
  ctx_lt : g.ctxSize < 2 ^ 31
  prefillCap_lt : g.prefillCap < 256 ^ 4
  rawWindow : g.rawWindow = sh.defaultRawCap g.ctxSize
  rawWindow_le : g.rawWindow ≤ g.rawCap
  rawCap_lt : g.rawCap < 256 ^ 4
  compCapMax : g.compCapMax = g.ctxSize / sh.compMinRatio + 2
  compCap_le : g.compCap ≤ g.compCapMax
  layerCompCapMax : ∀ il < sh.nLayer,
    g.layerCompCapMax il = if sh.ratio il = 0 then 0 else g.ctxSize / sh.ratio il + 2
  layerCompCap_le : ∀ il < sh.nLayer, g.layerCompCap il ≤ g.layerCompCapMax il
  /-- without growth everything is allocated at once -/
  full : cg.enabled = false →
    g.compCap = g.compCapMax ∧ ∀ il < sh.nLayer, g.layerCompCap il = g.layerCompCapMax il
  logits : g.logits.length = sh.logitsBytes
  bufs : HasBuffers sh g.rawCap g.layerCompCap g.buf
  nComp_le : ∀ il < sh.nLayer, g.nComp il ≤ g.layerCompCap il
  nIndexComp_le : ∀ il < sh.nLayer, g.nIndexComp il ≤ g.layerCompCap il

/-- A session with a valid checkpoint. -/
structure Valid (sh : Shape) (cg : CtxGrow) (g : GraphSession) : Prop extends
    WellFormed sh cg g where
  valid : g.checkpointValid = true
  len_lt : g.checkpoint.length < g.ctxSize
  tokens : ∀ t ∈ g.checkpoint, IsInt t
  nComp_le_shared : ∀ il < sh.nLayer, g.nComp il ≤ g.compCap
  /-- the indexer emits no more rows than the compressor of its layer -/
  nIndexComp_le_nComp : ∀ il < sh.nLayer, g.nIndexComp il ≤ g.nComp il

/-- The first position of the live raw window. -/
def rawFirst (sh : Shape) (g : GraphSession) : Nat :=
  g.checkpoint.length - g.sessionRawLiveRows sh

/-- What a payload of the session says. -/
def content (sh : Shape) (g : GraphSession) : Content where
  tokens := g.checkpoint
  logits := g.logits
  nComp := g.nComp
  nIndexComp := g.nIndexComp
  live := fun b =>
    (bufSpans sh g.rawCap (g.rawFirst sh) (g.sessionRawLiveRows sh) g.nComp g.nIndexComp b).flatMap
      (·.read g.buf)

variable {cg} {g : GraphSession}

theorem WellFormed.rawWindow_pos (h : g.WellFormed sh cg) : 0 < g.rawWindow := by
  rw [h.rawWindow]
  unfold Shape.defaultRawCap
  dsimp only
  generalize (if g.ctxSize < sh.nSwa then g.ctxSize else sh.nSwa) = rawCap
  split <;> omega

/-- The live rows are the last window of the tokens. -/
theorem WellFormed.sessionRawLiveRows (h : g.WellFormed sh cg) :
    g.sessionRawLiveRows sh = min g.checkpoint.length g.rawWindow := by
  have hpos := h.rawWindow_pos
  have hle := h.rawWindow_le
  have hwin : (if g.rawWindow = 0 then sh.nSwa else g.rawWindow) = g.rawWindow :=
    if_neg (by omega)
  have hcap : ¬ g.rawCap < g.rawWindow := by omega
  unfold GraphSession.sessionRawLiveRows
  dsimp only
  rw [hwin, if_neg hcap]
  split <;> omega

theorem WellFormed.rawLive_le (h : g.WellFormed sh cg) : g.sessionRawLiveRows sh ≤ g.rawCap := by
  have hle := h.rawWindow_le
  rw [h.sessionRawLiveRows]
  omega

/-- The spans of a session's own payload fit. -/
theorem Valid.fits (h : g.Valid sh cg) {s : Span Buffer}
    (hs : s ∈ bodySpans sh g.rawCap (g.rawFirst sh) (g.sessionRawLiveRows sh) g.nComp
      g.nIndexComp) : s.Fits g.buf :=
  bodySpans_fit h.bufs h.rawLive_le h.nComp_le h.nIndexComp_le hs

end GraphSession

/-- Spans that fit are read whole. -/
theorem length_flatMap_read {m : Buffer → List UInt8} {ss : List (Span Buffer)}
    (h : ∀ s ∈ ss, s.Fits m) : (ss.flatMap (·.read m)).length = (ss.map Span.len).sum := by
  rw [List.length_flatMap]
  congr 1
  exact List.map_congr_left fun s hs => Span.read_length (h s hs)

namespace GraphSession

variable {cg} {g : GraphSession}

theorem WellFormed.compCap_lt (h : g.WellFormed sh cg) : g.compCap < 256 ^ 4 := by
  have hle := h.compCap_le
  have hmax := h.compCapMax
  have hctx := h.ctx_lt
  have hdiv := Nat.div_le_self g.ctxSize sh.compMinRatio
  omega

theorem WellFormed.layerCompCapMax_lt (h : g.WellFormed sh cg) {il : Nat} (hil : il < sh.nLayer) :
    g.layerCompCapMax il < 256 ^ 4 := by
  have hmax := h.layerCompCapMax il hil
  have hctx := h.ctx_lt
  have hdiv := Nat.div_le_self g.ctxSize (sh.ratio il)
  split at hmax <;> omega

/-- **The content of a valid session** has the sizes its counters say. -/
theorem Valid.sized (h : g.Valid sh cg) :
    (g.content sh).Sized sh (g.sessionRawLiveRows sh) where
  tokens := h.tokens
  logits := h.logits
  nComp := fun il hil =>
    Nat.lt_of_le_of_lt ((h.nComp_le il hil).trans (h.layerCompCap_le il hil))
      (h.layerCompCapMax_lt hil)
  nIndexComp := fun il hil =>
    Nat.lt_of_le_of_lt ((h.nIndexComp_le il hil).trans (h.layerCompCap_le il hil))
      (h.layerCompCapMax_lt hil)
  live := fun b hb => by
    have hfit : ∀ s ∈ bufSpans sh g.rawCap (g.rawFirst sh) (g.sessionRawLiveRows sh) g.nComp
        g.nIndexComp b, s.Fits g.buf := fun s hs => h.fits (List.mem_flatMap.mpr ⟨b, hb, hs⟩)
    exact (length_flatMap_read hfit).trans (sum_len_bufSpans b)

end GraphSession

end DS4.Checkpoint
