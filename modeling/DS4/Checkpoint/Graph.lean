import DS4.Checkpoint.Content

namespace DS4.Checkpoint

/-!
# Session payloads — the graph back end

The caches of `ds4_gpu_graph` as a payload sees them, and its two directions.  GPU calls succeed:
tensors are read and written, allocations and copies are done, the Flash-MoE slot cache is reset.
The MTP caches are not part of a payload.

* `GraphSession` — the session; `WellFormed` is what creating it sets up, `Valid` a checkpoint.
* `ctxGrowShared`, `ctxGrowLayer` — the high-water growth of the compressed caches.
* `sessionPayloadBytes`, `sessionSavePayload`, `sessionLoadPayload` — size, writer and reader.
-/

open DS4.Lib

/-- `ds4_session` on the graph back end. -/
structure GraphSession extends Host where
  rawCap : Nat
  rawWindow : Nat
  compCap : Nat
  compCapMax : Nat
  layerCompCap : Nat → Nat
  layerCompCapMax : Nat → Nat
  nComp : Nat → Nat
  nIndexComp : Nat → Nat
  buf : Buffer → List UInt8
  mtpNRaw : Nat

/-- `DS4_CTX_GROW` and `DS4_CTX_GROW_BLOCK` -/
structure CtxGrow where
  enabled : Bool
  block : Nat

variable (sh : Shape) (cg : CtxGrow)

/-! ### Growth -/

/-- `comp_min_ratio`: the least ratio of a compressed layer. -/
def Shape.compMinRatio : Nat :=
  (List.range sh.nLayer).foldl
    (fun m il => if sh.ratio il ≠ 0 ∧ sh.ratio il < m then sh.ratio il else m) (2 ^ 32 - 1)

/-- The loop that adds blocks until there is room for `need` rows and two more. -/
def growLoop (block ceiling need cap : Nat) : Nat :=
  if cap < need + 2 ∧ 0 < block then
    if block ≤ ceiling ∧ ceiling - block < cap then ceiling
    else growLoop block ceiling need (cap + block)
  else cap
termination_by need + 2 - cap

/-- The capacity after growing. -/
def newCap (ratio ceiling need cap : Nat) : Nat :=
  let blockComp := if cg.block / ratio < 1 then 1 else cg.block / ratio
  min ceiling (growLoop blockComp ceiling need cap)

/-- A larger buffer with the first `keep` bytes of the old one; fresh memory is zero here. -/
def regrow (old : List UInt8) (keep size : Nat) : List UInt8 :=
  old.take keep ++ List.replicate (size - keep) 0

namespace GraphSession

/-- `metal_graph_ctx_grow_shared`; the scratch buffers are not modelled. -/
def ctxGrowShared (need : Nat) (g : GraphSession) : GraphSession :=
  if need ≤ g.compCap ∨ g.compCapMax ≤ g.compCap then g
  else
    let cap := newCap cg sh.compMinRatio g.compCapMax need g.compCap
    if cap ≤ g.compCap then g else { g with compCap := cap }

/-- `metal_graph_ctx_grow_layer` -/
def ctxGrowLayer (il need : Nat) (g : GraphSession) : GraphSession :=
  let ratio := sh.ratio il
  if ratio = 0 ∨ need ≤ g.layerCompCap il ∨ g.layerCompCapMax il ≤ g.layerCompCap il then g
  else
    let cap := newCap cg ratio (g.layerCompCapMax il) need (g.layerCompCap il)
    if cap ≤ g.layerCompCap il then g
    else
      let attn := regrow (g.buf (.attnCompKv il)) (g.nComp il * sh.rowBytes) (cap * sh.rowBytes)
      let index := regrow (g.buf (.indexCompKv il)) (g.nIndexComp il * sh.indexRowBytes)
        (cap * sh.indexRowBytes)
      let buf := Function.update g.buf (.attnCompKv il) attn
      { g with
        buf := if ratio = 4 then Function.update buf (.indexCompKv il) index else buf
        layerCompCap := Function.update g.layerCompCap il cap }

/-! ### Creating -/

/-- The compressed capacity to begin with. -/
def firstCap (ratio ceiling : Nat) : Nat :=
  if cg.enabled then min ceiling (cg.block / ratio + 2) else ceiling

/-- The ceiling of the compressed capacity of a layer. -/
def layerCeiling (ctxSize il : Nat) : Nat :=
  if sh.ratio il = 0 then 0 else ctxSize / sh.ratio il + 2

/-- The capacity of a layer to begin with. -/
def layerFirstCap (ctxSize il : Nat) : Nat :=
  if sh.ratio il = 0 then 0 else firstCap cg (sh.ratio il) (layerCeiling sh ctxSize il)

/-- The rows of the raw ring. -/
def ringCap (rawCap ctxSize : Nat) : Nat :=
  let rawCap := if rawCap = 0 then 1 else rawCap
  let rawCap := if rawCap < sh.defaultRawCap ctxSize then sh.defaultRawCap ctxSize else rawCap
  let rawCap := if ctxSize < rawCap then ctxSize else rawCap
  if rawCap = 0 then 1 else rawCap

/-- `ds4_session_create`, with `metal_graph_alloc_raw_cap`: the caches that a payload sees. -/
def create (ctxSize prefillCap rawCap : Nat) : GraphSession where
  ctxSize := ctxSize
  prefillCap := prefillCap
  checkpoint := []
  checkpointValid := false
  logits := List.replicate sh.logitsBytes 0
  mtpDraftValid := false
  rawCap := ringCap sh rawCap ctxSize
  rawWindow := sh.defaultRawCap ctxSize
  compCap := firstCap cg sh.compMinRatio (ctxSize / sh.compMinRatio + 2)
  compCapMax := ctxSize / sh.compMinRatio + 2
  layerCompCap := layerFirstCap sh cg ctxSize
  layerCompCapMax := layerCeiling sh ctxSize
  nComp := fun _ => 0
  nIndexComp := fun _ => 0
  buf := fun b =>
    let bytes := liveBytes sh (ringCap sh rawCap ctxSize) (layerFirstCap sh cg ctxSize)
      (layerFirstCap sh cg ctxSize) b
    match b with
    | .attnStateScore _ | .indexStateScore _ => negInf bytes
    | _ => List.replicate bytes 0
  mtpNRaw := 0

/-! ### Size -/

/-- `session_raw_live_rows` -/
def sessionRawLiveRows (g : GraphSession) : Nat :=
  let rows := if g.rawWindow = 0 then sh.nSwa else g.rawWindow
  let rows := if g.rawCap < rows then g.rawCap else rows
  if g.checkpoint.length < rows then g.checkpoint.length else rows

/-- `session_payload_live_tensor_bytes` -/
def sessionPayloadLiveTensorBytes (g : GraphSession) : Nat :=
  let rawLive := g.sessionRawLiveRows sh
  ((List.range sh.nLayer).map fun il =>
    let ratio := sh.ratio il
    rawLive * sh.headDim * 4 +
      if ratio = 0 then 0
      else
        g.nComp il * sh.headDim * 4 + sh.layerAttnStateBytes ratio + sh.layerAttnStateBytes ratio +
          if ratio = 4 then
            g.nIndexComp il * sh.indexerHeadDim * 4 + sh.layerIndexStateBytes ratio +
              sh.layerIndexStateBytes ratio
          else 0).sum

/-- `ds4_session_payload_bytes` -/
def sessionPayloadBytes (g : GraphSession) : Nat :=
  if g.checkpointValid then
    DS4_SESSION_PAYLOAD_U32_FIELDS * 4 + g.checkpoint.length * 4 + sh.nVocab * 4 + sh.nLayer * 4 +
      sh.nLayer * 4 + g.sessionPayloadLiveTensorBytes sh
  else 0

/-! ### Writing -/

/-- `payload_write_tensor_span` -/
def payloadWriteTensorSpan (buf : Buffer → List UInt8) (b : Buffer) (off n : Nat) :
    Except String (List UInt8) :=
  if ((buf b).length < off ∨ (buf b).length - off < n) then
    .error "session tensor is smaller than the payload"
  else .ok ((Span.pieces DS4_SESSION_IO_CHUNK b off n).flatMap (·.read buf))

/-- The header of a payload of this session. -/
def payloadHeader (g : GraphSession) : PayloadHeader where
  magic := DS4_SESSION_PAYLOAD_MAGIC
  version := DS4_SESSION_PAYLOAD_VERSION
  ctxSize := g.ctxSize
  prefillCap := g.prefillCap
  rawCap := g.rawCap
  rawWindow := g.rawWindow
  compCap := g.compCap
  tokens := g.checkpoint.length
  nLayer := sh.nLayer
  headDim := sh.headDim
  indexerHeadDim := sh.indexerHeadDim
  nVocab := sh.nVocab
  rawLive := g.sessionRawLiveRows sh

/-- The tensors of one layer; the raw ring in logical order. -/
def saveLayer (g : GraphSession) (il : Nat) : Except String (List UInt8) := do
  let rawLive := g.sessionRawLiveRows sh
  let rawFirst := g.checkpoint.length - rawLive
  let raw ← (List.range rawLive).mapM fun r =>
    payloadWriteTensorSpan g.buf (.rawKv il) ((rawFirst + r) % g.rawCap * sh.rowBytes) sh.rowBytes
  let ratio := sh.ratio il
  if ratio = 0 then return raw.flatten
  let comp ← payloadWriteTensorSpan g.buf (.attnCompKv il) 0 (g.nComp il * sh.rowBytes)
  let kv ← payloadWriteTensorSpan g.buf (.attnStateKv il) 0 (sh.layerAttnStateBytes ratio)
  let score ← payloadWriteTensorSpan g.buf (.attnStateScore il) 0 (sh.layerAttnStateBytes ratio)
  let attn := raw.flatten ++ comp ++ kv ++ score
  if ratio = 4 then
    let comp ← payloadWriteTensorSpan g.buf (.indexCompKv il) 0
      (g.nIndexComp il * sh.indexRowBytes)
    let kv ← payloadWriteTensorSpan g.buf (.indexStateKv il) 0 (sh.layerIndexStateBytes ratio)
    let score ← payloadWriteTensorSpan g.buf (.indexStateScore il) 0
      (sh.layerIndexStateBytes ratio)
    return attn ++ comp ++ kv ++ score
  else return attn

/-- `ds4_session_save_payload` -/
def sessionSavePayload (g : GraphSession) : Except String (List UInt8) := do
  if !g.checkpointValid then throw "session has no valid checkpoint to save"
  let layers ← (List.range sh.nLayer).mapM (g.saveLayer sh)
  return putWords (g.payloadHeader sh).words ++ putWords (g.checkpoint.map u32) ++ g.logits ++
    putWords ((List.range sh.nLayer).map g.nComp) ++
    putWords ((List.range sh.nLayer).map g.nIndexComp) ++ layers.flatten

/-! ### Reading -/

/-- One chunk of `payload_read_tensor_span`: it is read whole before the tensor is written. -/
def readPiece (p : Span Buffer) : Load GraphSession Unit := do
  let bytes ← payloadReadBytes p.len
  Reader.modifyState fun g => { g with buf := p.write g.buf bytes }

/-- `payload_read_tensor_span` -/
def payloadReadTensorSpan (b : Buffer) (off n : Nat) : Load GraphSession Unit := do
  let g ← Reader.getState
  if ((g.buf b).length < off ∨ (g.buf b).length - off < n) then
    throw (.failed "session tensor is smaller than the payload")
  else forM (Span.pieces DS4_SESSION_IO_CHUNK b off n) readPiece

/-- The tensors of one layer, into the ring as it is here. -/
def loadLayer (h : PayloadHeader) (nComp nIndexComp : List Nat) (il : Nat) :
    Load GraphSession Unit := do
  let g ← Reader.getState
  let rawFirst := h.tokens - h.rawLive
  forM (List.range h.rawLive) fun r =>
    payloadReadTensorSpan (.rawKv il) ((rawFirst + r) % g.rawCap * sh.rowBytes) sh.rowBytes
  let ratio := sh.ratio il
  if ratio = 0 then return
  payloadReadTensorSpan (.attnCompKv il) 0 (nComp.getD il 0 * sh.rowBytes)
  payloadReadTensorSpan (.attnStateKv il) 0 (sh.layerAttnStateBytes ratio)
  payloadReadTensorSpan (.attnStateScore il) 0 (sh.layerAttnStateBytes ratio)
  if ratio = 4 then
    payloadReadTensorSpan (.indexCompKv il) 0 (nIndexComp.getD il 0 * sh.indexRowBytes)
    payloadReadTensorSpan (.indexStateKv il) 0 (sh.layerIndexStateBytes ratio)
    payloadReadTensorSpan (.indexStateScore il) 0 (sh.layerIndexStateBytes ratio)

/-- The growth of the shared scratch before the compressed capacity is compared. -/
def headGrow (h : PayloadHeader) (g : GraphSession) : GraphSession :=
  if cg.enabled ∧ g.compCap < h.compCap ∧ h.compCap ≤ g.compCapMax then
    g.ctxGrowShared sh cg h.compCap
  else g

/-- The growth of one layer before its counter is checked. -/
def layerGrow (il v : Nat) (g : GraphSession) : GraphSession :=
  if cg.enabled ∧ g.layerCompCap il < v ∧ v ≤ g.layerCompCapMax il then g.ctxGrowLayer sh cg il v
  else g

/-- The check of one counter. -/
def countFits (h : PayloadHeader) (il v : Nat) (g : GraphSession) : Bool :=
  v ≤ h.compCap ∧ v ≤ g.layerCompCap il

/-- Up to the logits: header, growth of the shared scratch, tokens. -/
def loadHead : Load GraphSession (PayloadHeader × List Int) := do
  let h ← readHeader
  let g ← Reader.getState
  check (headerError sh g.ctxSize g.prefillCap g.rawWindow g.rawCap h)
  Reader.modifyState (headGrow sh cg h)
  let g ← Reader.getState
  check (if g.compCap < h.compCap then
    some "KV checkpoint compressed cache is larger than current context" else none)
  let words ← readWords h.tokens
  return (h, words.map i32)

/-- The logits, straight into the session. -/
def loadLogits : Load GraphSession Unit :=
  payloadReadInto sh.logitsBytes fun bytes g => .ok { g with logits := splice g.logits 0 bytes }

/-- The row counters, with growth of the layers. -/
def loadCounts (h : PayloadHeader) : Load GraphSession (List Nat × List Nat) := do
  let nComp ← readCounts "KV checkpoint has invalid compressed row count" (layerGrow sh cg)
    (countFits h) (List.range sh.nLayer)
  let nIndexComp ← readCounts "KV checkpoint has invalid indexer row count" (fun _ _ g => g)
    (countFits h) (List.range sh.nLayer)
  return (nComp, nIndexComp)

/-- The new checkpoint replaces the old one. -/
def commit (tokens : List Int) (nComp nIndexComp : List Nat) (g : GraphSession) : GraphSession :=
  { g with
    checkpoint := tokens
    nComp := fun il => if il < sh.nLayer then nComp.getD il 0 else g.nComp il
    nIndexComp := fun il => if il < sh.nLayer then nIndexComp.getD il 0 else g.nIndexComp il
    checkpointValid := true
    mtpDraftValid := false
    mtpNRaw := 0 }

/-- `ds4_session_load_payload`; the declared length is the `remaining` of the source. -/
def sessionLoadPayload : Load GraphSession Unit := do
  let (h, tokens) ← loadHead sh cg
  loadLogits sh
  let (nComp, nIndexComp) ← loadCounts sh cg h
  forM (List.range sh.nLayer) (loadLayer sh h nComp nIndexComp)
  let left ← Reader.getRemaining
  check (if left ≠ 0 then some "KV checkpoint has trailing payload bytes" else none)
  Reader.modifyState (commit sh tokens nComp nIndexComp)

end GraphSession

end DS4.Checkpoint
