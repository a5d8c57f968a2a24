import DS4.Checkpoint.Stream

namespace DS4.Checkpoint

/-!
# Session payloads — the CPU back end

The caches of `ds4_kv_cache`, and the two directions of a payload.  The raw rows of a layer are
the first `n_raw` rows of its buffer, oldest first; nothing grows.  A load reads straight into the
buffers, so a section that is longer than its buffer is written past the end of it.

* `CpuSession`, `kvCacheInit` — the session and its empty caches.
* `sessionPayloadBytes`, `sessionSavePayload`, `sessionLoadPayload` — size, writer and reader.
-/

open DS4.Lib

/-- `ds4_session` on the CPU back end; `comp_cap` and the counters are those of the layers. -/
structure CpuSession extends Host where
  compCap : Nat → Nat
  nRaw : Nat → Nat
  nComp : Nat → Nat
  nIndexComp : Nat → Nat
  buf : Buffer → List UInt8

variable (sh : Shape)

/-! ### Empty caches -/

/-- The rows of the raw buffers. -/
def kvRawCap (ctxSize : Nat) : Nat :=
  let rawCap := sh.defaultRawCap ctxSize
  let rawCap := if ctxSize < rawCap then ctxSize else rawCap
  if rawCap = 0 then 1 else rawCap

/-- The rows of the compressed buffers of a layer. -/
def kvCompCap (ctxSize il : Nat) : Nat :=
  if sh.ratio il = 0 then 0 else ctxSize / sh.ratio il + 2

/-- The buffers of empty caches. -/
def kvInitBuf (ctxSize : Nat) : Buffer → List UInt8
  | .rawKv _ => List.replicate (kvRawCap sh ctxSize * sh.rowBytes) 0
  | .attnCompKv il =>
    if sh.ratio il = 0 then [] else List.replicate (kvCompCap sh ctxSize il * sh.rowBytes) 0
  | .attnStateKv il =>
    if sh.ratio il = 0 then [] else List.replicate (sh.layerAttnStateBytes (sh.ratio il)) 0
  | .attnStateScore il =>
    if sh.ratio il = 0 then [] else negInf (sh.layerAttnStateBytes (sh.ratio il))
  | .indexCompKv il =>
    if sh.ratio il = 4 then List.replicate (kvCompCap sh ctxSize il * sh.indexRowBytes) 0 else []
  | .indexStateKv il =>
    if sh.ratio il = 4 then List.replicate (sh.layerIndexStateBytes (sh.ratio il)) 0 else []
  | .indexStateScore il =>
    if sh.ratio il = 4 then negInf (sh.layerIndexStateBytes (sh.ratio il)) else []

namespace CpuSession

/-- `kv_cache_init` with the default ring. -/
def kvCacheInit (ctxSize : Nat) (s : CpuSession) : CpuSession :=
  { s with
    compCap := kvCompCap sh ctxSize
    nRaw := fun _ => 0
    nComp := fun _ => 0
    nIndexComp := fun _ => 0
    buf := kvInitBuf sh ctxSize }

/-- `session_cpu_reset_cache` -/
def sessionCpuResetCache (s : CpuSession) : CpuSession := s.kvCacheInit sh s.ctxSize

/-- `session_cpu_raw_live_rows` -/
def sessionCpuRawLiveRows (s : CpuSession) : Nat :=
  if s.checkpointValid then
    let rows := sh.defaultRawCap s.ctxSize
    if s.checkpoint.length < rows then s.checkpoint.length else rows
  else 0

/-- `session_cpu_comp_cap`: the rows of the first ratio-4 layer, else of the first compressed
    layer. -/
def sessionCpuCompCap (s : CpuSession) : Nat :=
  match (List.range sh.nLayer).find? fun il => sh.ratio il == 4 with
  | some il => s.compCap il
  | none =>
    match (List.range sh.nLayer).find? fun il => sh.ratio il != 0 with
    | some il => s.compCap il
    | none => s.ctxSize

/-! ### Size -/

/-- `session_cpu_payload_live_tensor_bytes` -/
def sessionCpuPayloadLiveTensorBytes (s : CpuSession) : Nat :=
  let rawLive := s.sessionCpuRawLiveRows sh
  ((List.range sh.nLayer).map fun il =>
    let ratio := sh.ratio il
    rawLive * sh.headDim * 4 +
      if ratio = 0 then 0
      else
        s.nComp il * sh.headDim * 4 + sh.layerAttnStateBytes ratio + sh.layerAttnStateBytes ratio +
          if ratio = 4 then
            s.nIndexComp il * sh.indexerHeadDim * 4 + sh.layerIndexStateBytes ratio +
              sh.layerIndexStateBytes ratio
          else 0).sum

/-- `ds4_session_payload_bytes` -/
def sessionPayloadBytes (s : CpuSession) : Nat :=
  if s.checkpointValid then
    DS4_SESSION_PAYLOAD_U32_FIELDS * 4 + s.checkpoint.length * 4 + sh.nVocab * 4 + sh.nLayer * 4 +
      sh.nLayer * 4 + s.sessionCpuPayloadLiveTensorBytes sh
  else 0

/-! ### Writing -/

/-- `payload_write_bytes` from a buffer. -/
def payloadWriteBytes (buf : Buffer → List UInt8) (b : Buffer) (off n : Nat) :
    Except LoadError (List UInt8) :=
  if (buf b).length < off + n then .error (.overflow b)
  else .ok ((⟨b, off, n⟩ : Span Buffer).read buf)

/-- The header of a payload of this session. -/
def payloadHeader (s : CpuSession) : PayloadHeader where
  magic := DS4_SESSION_PAYLOAD_MAGIC
  version := DS4_SESSION_PAYLOAD_VERSION
  ctxSize := s.ctxSize
  prefillCap := s.prefillCap
  rawCap := sh.defaultRawCap s.ctxSize
  rawWindow := sh.defaultRawCap s.ctxSize
  compCap := s.sessionCpuCompCap sh
  tokens := s.checkpoint.length
  nLayer := sh.nLayer
  headDim := sh.headDim
  indexerHeadDim := sh.indexerHeadDim
  nVocab := sh.nVocab
  rawLive := s.sessionCpuRawLiveRows sh

/-- The caches of one layer; the live raw rows are the last ones. -/
def saveLayer (s : CpuSession) (il : Nat) : Except LoadError (List UInt8) := do
  let rawLive := s.sessionCpuRawLiveRows sh
  if s.nRaw il < rawLive then
    throw (.failed "CPU session raw cache has fewer live rows than checkpoint")
  let rawStart := s.nRaw il - rawLive
  let raw ← payloadWriteBytes s.buf (.rawKv il) (rawStart * sh.rowBytes) (rawLive * sh.rowBytes)
  let ratio := sh.ratio il
  if ratio = 0 then return raw
  let comp ← payloadWriteBytes s.buf (.attnCompKv il) 0 (s.nComp il * sh.rowBytes)
  let kv ← payloadWriteBytes s.buf (.attnStateKv il) 0 (sh.layerAttnStateBytes ratio)
  let score ← payloadWriteBytes s.buf (.attnStateScore il) 0 (sh.layerAttnStateBytes ratio)
  let attn := raw ++ comp ++ kv ++ score
  if ratio = 4 then
    let comp ← payloadWriteBytes s.buf (.indexCompKv il) 0 (s.nIndexComp il * sh.indexRowBytes)
    let kv ← payloadWriteBytes s.buf (.indexStateKv il) 0 (sh.layerIndexStateBytes ratio)
    let score ← payloadWriteBytes s.buf (.indexStateScore il) 0 (sh.layerIndexStateBytes ratio)
    return attn ++ comp ++ kv ++ score
  else return attn

/-- `ds4_session_save_payload` -/
def sessionSavePayload (s : CpuSession) : Except LoadError (List UInt8) := do
  if !s.checkpointValid then throw (.failed "session has no valid checkpoint to save")
  let layers ← (List.range sh.nLayer).mapM (s.saveLayer sh)
  return putWords (s.payloadHeader sh).words ++ putWords (s.checkpoint.map u32) ++ s.logits ++
    putWords ((List.range sh.nLayer).map s.nComp) ++
    putWords ((List.range sh.nLayer).map s.nIndexComp) ++ layers.flatten

/-! ### Reading -/

/-- Bytes that arrive at the start of a buffer. -/
def store (b : Buffer) (bytes : List UInt8) (s : CpuSession) : Except LoadError CpuSession :=
  if (s.buf b).length < bytes.length then .error (.overflow b)
  else .ok { s with buf := (⟨b, 0, bytes.length⟩ : Span Buffer).write s.buf bytes }

/-- `payload_read_bytes` into a buffer. -/
def readInto (b : Buffer) (n : Nat) : Load CpuSession Unit := payloadReadInto n (store b)

/-- The counters of a layer with compression. -/
def setCounts (nComp nIndexComp : List Nat) (il : Nat) (s : CpuSession) : CpuSession :=
  { s with
    nComp := Function.update s.nComp il (nComp.getD il 0)
    nIndexComp := Function.update s.nIndexComp il (nIndexComp.getD il 0) }

/-- The caches of one layer. -/
def loadLayer (h : PayloadHeader) (nComp nIndexComp : List Nat) (il : Nat) :
    Load CpuSession Unit := do
  readInto (.rawKv il) (h.rawLive * sh.rowBytes)
  Reader.modifyState fun s => { s with nRaw := Function.update s.nRaw il h.rawLive }
  let ratio := sh.ratio il
  if ratio = 0 then return
  Reader.modifyState (setCounts nComp nIndexComp il)
  readInto (.attnCompKv il) (nComp.getD il 0 * sh.rowBytes)
  readInto (.attnStateKv il) (sh.layerAttnStateBytes ratio)
  readInto (.attnStateScore il) (sh.layerAttnStateBytes ratio)
  if ratio = 4 then
    readInto (.indexCompKv il) (nIndexComp.getD il 0 * sh.indexRowBytes)
    readInto (.indexStateKv il) (sh.layerIndexStateBytes ratio)
    readInto (.indexStateScore il) (sh.layerIndexStateBytes ratio)

/-- The check of one counter; every layer is compared with the one capacity. -/
def countFits (h : PayloadHeader) (_ v : Nat) (s : CpuSession) : Bool :=
  v ≤ h.compCap ∧ v ≤ s.sessionCpuCompCap sh

/-- Header and tokens. -/
def loadHead : Load CpuSession (PayloadHeader × List Int) := do
  let h ← readHeader
  let s ← Reader.getState
  let rawCap := sh.defaultRawCap s.ctxSize
  check (headerError sh s.ctxSize s.prefillCap rawCap rawCap h)
  check (if s.sessionCpuCompCap sh < h.compCap then
    some "KV checkpoint compressed cache is larger than current context" else none)
  let words ← readWords h.tokens
  return (h, words.map i32)

/-- The logits, straight into the session. -/
def loadLogits : Load CpuSession Unit :=
  payloadReadInto sh.logitsBytes fun bytes s => .ok { s with logits := splice s.logits 0 bytes }

/-- The row counters. -/
def loadCounts (h : PayloadHeader) : Load CpuSession (List Nat × List Nat) := do
  let nComp ← readCounts "KV checkpoint has invalid compressed row count" (fun _ _ s => s)
    (countFits sh h) (List.range sh.nLayer)
  let nIndexComp ← readCounts "KV checkpoint has invalid indexer row count" (fun _ _ s => s)
    (countFits sh h) (List.range sh.nLayer)
  return (nComp, nIndexComp)

/-- Before the caches are touched the checkpoint is invalid. -/
def begin (s : CpuSession) : CpuSession :=
  { s with checkpointValid := false, mtpDraftValid := false }.sessionCpuResetCache sh

/-- The new checkpoint. -/
def commit (tokens : List Int) (s : CpuSession) : CpuSession :=
  { s with checkpoint := tokens, checkpointValid := true, mtpDraftValid := false }

/-- `ds4_session_load_payload`; the declared length is the `remaining` of the source. -/
def sessionLoadPayload : Load CpuSession Unit := do
  let (h, tokens) ← loadHead sh
  loadLogits sh
  let (nComp, nIndexComp) ← loadCounts sh h
  Reader.modifyState (begin sh)
  forM (List.range sh.nLayer) (loadLayer sh h nComp nIndexComp)
  let left ← Reader.getRemaining
  check (if left ≠ 0 then some "KV checkpoint has trailing payload bytes" else none)
  Reader.modifyState (commit tokens)

end CpuSession

end DS4.Checkpoint
