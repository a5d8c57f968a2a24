import DS4.Lib.Bytes
import DS4.Lib.Reader

namespace DS4.Checkpoint

/-!
# Session payloads — the format

What `ds4_session_save_payload` and `ds4_session_load_payload` share on the CPU and on the graph:
the dimensions of the model, the header, the sizes, and reading with a declared length.

* `Shape` — the dimensions; `flash` and `pro` are the two models.
* `Buffer` — the buffers of a session, one of each kind a layer.
* `PayloadHeader` — the thirteen words a payload starts with.
* `payloadReadBytes`, `payloadReadInto`, `readCounts` — reading; a read that breaks off has
  stored what there was.
* `headerError` — the checks of the header that do not depend on the compressed caches.
-/

open DS4.Lib

/-! ### Dimensions -/

/-- The active `g_ds4_shape`, with `g_ds4_compress_ratios`, as far as payloads depend on them. -/
structure Shape where
  nLayer : Nat
  headDim : Nat
  indexerHeadDim : Nat
  nVocab : Nat
  nSwa : Nat
  /-- `ds4_layer_compress_ratio` -/
  ratio : Nat → Nat
  nLayer_lt : nLayer < 256 ^ 4
  headDim_lt : headDim < 256 ^ 4
  indexerHeadDim_lt : indexerHeadDim < 256 ^ 4
  nVocab_lt : nVocab < 256 ^ 4
  ratio_mem : ∀ il < nLayer, ratio il = 0 ∨ ratio il = 4 ∨ ratio il = 128
  ratio_four : ∃ il < nLayer, ratio il = 4

/-- `ds4_variant` -/
inductive Variant where
  | flash
  | pro

/-- `ds4_expected_layer_compress_ratio`; a model whose metadata differ is not loaded. -/
def expectedLayerCompressRatio (v : Variant) (il : Nat) : Nat :=
  match v with
  | .flash => if il < 2 then 0 else if il % 2 = 0 then 4 else 128
  | .pro   => if il < 2 then 128 else if il % 2 = 0 then 4 else 128

theorem expectedLayerCompressRatio_mem (v : Variant) (il : Nat) :
    expectedLayerCompressRatio v il = 0 ∨ expectedLayerCompressRatio v il = 4 ∨
      expectedLayerCompressRatio v il = 128 := by
  unfold expectedLayerCompressRatio
  cases v <;> dsimp only <;> split <;> try split
  all_goals simp

/-- `DS4_SHAPE_FLASH` -/
def flash : Shape where
  nLayer := 43
  headDim := 512
  indexerHeadDim := 128
  nVocab := 129280
  nSwa := 128
  ratio := expectedLayerCompressRatio .flash
  nLayer_lt := by decide
  headDim_lt := by decide
  indexerHeadDim_lt := by decide
  nVocab_lt := by decide
  ratio_mem := fun il _ => expectedLayerCompressRatio_mem .flash il
  ratio_four := ⟨2, by decide, rfl⟩

/-- `DS4_SHAPE_PRO` -/
def pro : Shape where
  nLayer := 61
  headDim := 512
  indexerHeadDim := 128
  nVocab := 129280
  nSwa := 128
  ratio := expectedLayerCompressRatio .pro
  nLayer_lt := by decide
  headDim_lt := by decide
  indexerHeadDim_lt := by decide
  nVocab_lt := by decide
  ratio_mem := fun il _ => expectedLayerCompressRatio_mem .pro il
  ratio_four := ⟨2, by decide, rfl⟩

/-- The buffers of the caches; on the graph these are tensors. -/
inductive Buffer where
  | rawKv (il : Nat)
  | attnCompKv (il : Nat)
  | attnStateKv (il : Nat)
  | attnStateScore (il : Nat)
  | indexCompKv (il : Nat)
  | indexStateKv (il : Nat)
  | indexStateScore (il : Nat)
deriving DecidableEq

/-- The layer of a buffer. -/
def Buffer.layer : Buffer → Nat
  | rawKv il | attnCompKv il | attnStateKv il | attnStateScore il
  | indexCompKv il | indexStateKv il | indexStateScore il => il

namespace Shape

variable (sh : Shape)

/-- The bytes of a row of the raw and the compressed cache. -/
def rowBytes : Nat := sh.headDim * 4

/-- The bytes of a row of the indexer cache. -/
def indexRowBytes : Nat := sh.indexerHeadDim * 4

/-- `layer_attn_state_bytes` -/
def layerAttnStateBytes (ratio : Nat) : Nat :=
  let coff := if ratio = 4 then 2 else 1
  coff * sh.headDim * coff * ratio * 4

/-- `layer_index_state_bytes` -/
def layerIndexStateBytes (ratio : Nat) : Nat :=
  let coff := if ratio = 4 then 2 else 1
  coff * sh.indexerHeadDim * coff * ratio * 4

/-- The bytes of the logits. -/
def logitsBytes : Nat := sh.nVocab * 4

/-- `ds4_default_raw_cap`, and in the same way the `raw_window` of the graph. -/
def defaultRawCap (ctxSize : Nat) : Nat :=
  let rawCap := if ctxSize < sh.nSwa then ctxSize else sh.nSwa
  if rawCap = 0 then 1 else rawCap

end Shape

/-- Floats that are `DS4_NEG_INF`, which is `-1.0e30f`. -/
def negInf (bytes : Nat) : List UInt8 :=
  (List.replicate (bytes / 4) [0xca, 0xf2, 0x49, 0xf1]).flatten

theorem length_negInf (n : Nat) : (negInf (n * 4)).length = n * 4 := by
  unfold negInf
  rw [Nat.mul_div_cancel n (by omega), List.length_flatten, List.map_replicate,
    List.sum_replicate_nat]
  rfl

/-! ### The header -/

def DS4_SESSION_PAYLOAD_MAGIC : Nat := 0x34565344
def DS4_SESSION_PAYLOAD_VERSION : Nat := 1
def DS4_SESSION_PAYLOAD_U32_FIELDS : Nat := 13
def DS4_SESSION_IO_CHUNK : Nat := 8 * 1024 * 1024

/-- The words of the header, in order. -/
structure PayloadHeader where
  magic : Nat
  version : Nat
  ctxSize : Nat
  prefillCap : Nat
  rawCap : Nat
  rawWindow : Nat
  compCap : Nat
  tokens : Nat
  nLayer : Nat
  headDim : Nat
  indexerHeadDim : Nat
  nVocab : Nat
  rawLive : Nat

namespace PayloadHeader

/-- As it is written. -/
def words (h : PayloadHeader) : List Nat :=
  [h.magic, h.version, h.ctxSize, h.prefillCap, h.rawCap, h.rawWindow, h.compCap, h.tokens,
    h.nLayer, h.headDim, h.indexerHeadDim, h.nVocab, h.rawLive]

/-- As it is read. -/
def ofWords (w : List Nat) : PayloadHeader where
  magic := w.getD 0 0
  version := w.getD 1 0
  ctxSize := w.getD 2 0
  prefillCap := w.getD 3 0
  rawCap := w.getD 4 0
  rawWindow := w.getD 5 0
  compCap := w.getD 6 0
  tokens := w.getD 7 0
  nLayer := w.getD 8 0
  headDim := w.getD 9 0
  indexerHeadDim := w.getD 10 0
  nVocab := w.getD 11 0
  rawLive := w.getD 12 0

@[simp] theorem ofWords_words (h : PayloadHeader) : ofWords h.words = h := rfl

@[simp] theorem words_length (h : PayloadHeader) :
    h.words.length = DS4_SESSION_PAYLOAD_U32_FIELDS := rfl

end PayloadHeader

/-! ### Words -/

/-- `payload_put_u32` -/
def payloadPutU32 (v : Nat) : List UInt8 := leBytes 4 v

/-- `payload_get_u32` -/
def payloadGetU32 (b : List UInt8) : Nat := leValue b

/-- The cast of an `int` to `uint32_t`. -/
def u32 (v : Int) : Nat := (v % 0x100000000).toNat

/-- The cast of a `uint32_t` to `int`. -/
def i32 (u : Nat) : Int := if u < 0x80000000 then u else u - 0x100000000

/-- The values of an `int`. -/
def IsInt (v : Int) : Prop := -0x80000000 ≤ v ∧ v < 0x80000000

theorem u32_lt (v : Int) : u32 v < 256 ^ 4 := by
  unfold u32
  omega

theorem i32_u32 {v : Int} (h : IsInt v) : i32 (u32 v) = v := by
  unfold IsInt at h
  unfold i32 u32
  split <;> omega

theorem u32_i32 {u : Nat} (h : u < 256 ^ 4) : u32 (i32 u) = u := by
  unfold i32 u32
  split <;> omega

/-- Words one after the other. -/
def putWords (ws : List Nat) : List UInt8 := ws.flatMap payloadPutU32

theorem putWords_length (ws : List Nat) : (putWords ws).length = 4 * ws.length := by
  induction ws with
  | nil => rfl
  | cons w ws ih =>
    rw [putWords, List.flatMap_cons, List.length_append, ← putWords, ih, payloadPutU32,
      leBytes_length, List.length_cons]
    omega

/-! ### Reading -/

/-- How a load ends early: with a message, or by reading past the end of a buffer. -/
inductive LoadError where
  | failed (msg : String)
  | overflow (b : Buffer)

/-- A load, over the session as it is changed. -/
abbrev Load (σ : Type) := Reader LoadError σ

variable {σ : Type}

/-- `payload_read_bytes`, into memory that is not part of the session. -/
def payloadReadBytes (n : Nat) : Load σ (List UInt8) := .of fun st =>
  if st.1.remaining < n then (.error (.failed "truncated session payload"), st)
  else if st.1.Has n then (.ok (st.1.peek n), st.1.skip n, st.2)
  else
    (.error (.failed "failed to read session payload"),
      { st.1 with pos := st.1.data.length }, st.2)

/-- `payload_read_bytes`, into the session: `store` puts the bytes there that could be read. -/
def payloadReadInto (n : Nat) (store : List UInt8 → σ → Except LoadError σ) : Load σ Unit :=
  .of fun st =>
    if st.1.remaining < n then (.error (.failed "truncated session payload"), st)
    else
      match store (st.1.peek n) st.2 with
      | .error e => (.error e, st)
      | .ok s =>
        if st.1.Has n then (.ok (), st.1.skip n, s)
        else
          (.error (.failed "failed to read session payload"),
            { st.1 with pos := st.1.data.length }, s)

/-- `payload_read_u32` -/
def payloadReadU32 : Load σ Nat := do
  let b ← payloadReadBytes 4
  return payloadGetU32 b

/-- Some words. -/
def readWords : Nat → Load σ (List Nat)
  | 0     => return []
  | n + 1 => do
    let v ← payloadReadU32
    let vs ← readWords n
    return v :: vs

/-- The row counters of the layers; `grow` makes room before a counter is checked. -/
def readCounts (msg : String) (grow : Nat → Nat → σ → σ) (fits : Nat → Nat → σ → Bool) :
    List Nat → Load σ (List Nat)
  | []        => return []
  | il :: ils => do
    let v ← payloadReadU32
    Reader.modifyState (grow il v)
    let s ← Reader.getState
    if fits il v s then
      let vs ← readCounts msg grow fits ils
      return v :: vs
    else throw (.failed msg)

/-- Go on unless there is an error. -/
def check : Option String → Load σ Unit
  | some msg => throw (.failed msg)
  | none     => return ()

/-- The header words, with the checks of magic and version. -/
def readHeader : Load σ PayloadHeader := do
  let w ← readWords DS4_SESSION_PAYLOAD_U32_FIELDS
  let h := PayloadHeader.ofWords w
  if h.magic = DS4_SESSION_PAYLOAD_MAGIC ∧ h.version = DS4_SESSION_PAYLOAD_VERSION then return h
  else throw (.failed "unsupported session payload version")

/-- The checks of the header against the runtime; on the CPU window and ring are both
    `ds4_default_raw_cap`. -/
def headerError (sh : Shape) (ctxSize prefillCap rawWindow rawCap : Nat) (h : PayloadHeader) :
    Option String :=
  let expectedRawLive := if h.tokens < h.rawWindow then h.tokens else h.rawWindow
  if ctxSize < h.ctxSize ∨ ctxSize ≤ h.tokens then
    some "KV checkpoint does not fit current context"
  else if h.nLayer ≠ sh.nLayer ∨ h.headDim ≠ sh.headDim ∨ h.indexerHeadDim ≠ sh.indexerHeadDim ∨
      h.nVocab ≠ sh.nVocab then
    some "KV checkpoint was written for a different DS4 layout"
  else if h.prefillCap ≠ prefillCap ∨ h.rawWindow ≠ rawWindow then
    some "KV checkpoint graph chunk layout does not match current runtime"
  else if h.rawCap = 0 ∨ h.rawLive ≠ expectedRawLive ∨ h.rawCap < h.rawLive ∨ rawCap < h.rawLive then
    some "KV checkpoint raw ring layout does not match current context"
  else none

/-! ### What the readers do -/

/-- The next `n` words of a stream. -/
def streamWords : Source → Nat → List Nat
  | _, 0      => []
  | fp, n + 1 => payloadGetU32 (fp.peek 4) :: streamWords (fp.skip 4) n

theorem streamWords_length (fp : Source) (n : Nat) : (streamWords fp n).length = n := by
  induction n generalizing fp with
  | zero => rfl
  | succ n ih => rw [streamWords, List.length_cons, ih]

theorem streamWords_lt (fp : Source) (n : Nat) : ∀ w ∈ streamWords fp n, w < 256 ^ 4 := by
  induction n generalizing fp with
  | zero => exact fun w hw => absurd hw List.not_mem_nil
  | succ n ih =>
    intro w hw
    obtain rfl | hw := List.mem_cons.mp hw
    · refine Nat.lt_of_lt_of_le (leValue_lt _) (Nat.pow_le_pow_right (by omega) ?_)
      exact fp.peek_length_le 4
    · exact ih _ w hw

/-- Words that are next in the stream. -/
theorem streamWords_of_next {fp : Source} {ws : List Nat} (hws : ∀ w ∈ ws, w < 256 ^ 4)
    (h : fp.Next (putWords ws)) : streamWords fp ws.length = ws := by
  induction ws generalizing fp with
  | nil => rfl
  | cons w ws ih =>
    rw [putWords, List.flatMap_cons, ← putWords] at h
    have hlen : (payloadPutU32 w).length = 4 := leBytes_length 4 w
    have hpeek := h.left.peek
    have hnext := h.right
    rw [hlen] at hpeek hnext
    have hw : payloadGetU32 (payloadPutU32 w) = w :=
      leValue_leBytes_of_lt (hws w List.mem_cons_self)
    rw [List.length_cons, streamWords, hpeek, hw,
      ih (fun v hv => hws v (List.mem_cons_of_mem _ hv)) hnext]

section exec

variable {fp : Source} {s : σ}

theorem exec_payloadReadBytes_ok {n : Nat} (h : n ≤ fp.avail) :
    (payloadReadBytes n).exec (fp, s) = (.ok (fp.peek n), fp.skip n, s) := by
  unfold Source.avail at h
  have hhas : fp.Has n := show n ≤ fp.data.length - fp.pos by omega
  rw [payloadReadBytes, Reader.exec_of, if_neg (by dsimp only; omega), if_pos hhas]

theorem exec_payloadReadBytes_error {n : Nat} (h : fp.avail < n) :
    ∃ e fp', (payloadReadBytes n).exec (fp, s) = (.error (.failed e), fp', s) := by
  unfold Source.avail at h
  rw [payloadReadBytes, Reader.exec_of]
  by_cases hrem : fp.remaining < n
  · exact ⟨_, _, if_pos hrem⟩
  · have hhas : ¬ fp.Has n := fun hhas => absurd (show n ≤ fp.data.length - fp.pos from hhas) (by omega)
    rw [if_neg hrem, if_neg hhas]
    exact ⟨_, _, rfl⟩

variable {n : Nat} {store : List UInt8 → σ → Except LoadError σ} {s' : σ}

theorem exec_payloadReadInto_ok (h : n ≤ fp.avail) (hs : store (fp.peek n) s = .ok s') :
    (payloadReadInto n store).exec (fp, s) = (.ok (), fp.skip n, s') := by
  unfold Source.avail at h
  have hhas : fp.Has n := show n ≤ fp.data.length - fp.pos by omega
  rw [payloadReadInto, Reader.exec_of, if_neg (by dsimp only; omega)]
  dsimp only
  rw [hs]
  exact if_pos hhas

/-- The declared length is too small. -/
theorem exec_payloadReadInto_short (h : fp.remaining < n) :
    (payloadReadInto n store).exec (fp, s) =
      (.error (.failed "truncated session payload"), fp, s) := by
  rw [payloadReadInto, Reader.exec_of, if_pos h]

/-- The stream ends early: what there was has been stored. -/
theorem exec_payloadReadInto_torn (hrem : n ≤ fp.remaining) (h : fp.avail < n)
    (hs : store (fp.peek n) s = .ok s') :
    ∃ fp', (payloadReadInto n store).exec (fp, s) =
      (.error (.failed "failed to read session payload"), fp', s') := by
  unfold Source.avail at h
  have hhas : ¬ fp.Has n := fun hhas => absurd (show n ≤ fp.data.length - fp.pos from hhas) (by omega)
  rw [payloadReadInto, Reader.exec_of, if_neg (by dsimp only; omega)]
  dsimp only
  rw [hs]
  exact ⟨_, if_neg hhas⟩

theorem exec_payloadReadInto_overflow {e : LoadError} (hrem : n ≤ fp.remaining)
    (hs : store (fp.peek n) s = .error e) :
    (payloadReadInto n store).exec (fp, s) = (.error e, fp, s) := by
  rw [payloadReadInto, Reader.exec_of, if_neg (by dsimp only; omega)]
  dsimp only
  rw [hs]

theorem exec_payloadReadU32_ok (h : 4 ≤ fp.avail) :
    payloadReadU32.exec (fp, s) = (.ok (payloadGetU32 (fp.peek 4)), fp.skip 4, s) :=
  Reader.exec_bind_ok (exec_payloadReadBytes_ok h)

theorem exec_payloadReadU32_error (h : fp.avail < 4) :
    ∃ e fp', payloadReadU32.exec (fp, s) = (.error (.failed e), fp', s) := by
  obtain ⟨e, fp', he⟩ := @exec_payloadReadBytes_error σ fp s 4 h
  exact ⟨e, fp', Reader.exec_bind_error he⟩

theorem exec_readWords_ok {n : Nat} (h : 4 * n ≤ fp.avail) :
    (readWords n).exec (fp, s) = (.ok (streamWords fp n), fp.skip (4 * n), s) := by
  induction n generalizing fp with
  | zero => rfl
  | succ n ih =>
    have hrest := @ih (fp.skip 4) (by rw [Source.avail_skip]; omega)
    rw [Source.skip_skip] at hrest
    rw [readWords, Reader.exec_bind_ok (exec_payloadReadU32_ok (by omega)),
      Reader.exec_bind_ok hrest, Nat.mul_succ, Nat.add_comm (4 * n)]
    rfl

theorem exec_readWords_error {n : Nat} (h : fp.avail < 4 * n) :
    ∃ e fp', (readWords n).exec (fp, s) = (.error (.failed e), fp', s) := by
  induction n generalizing fp with
  | zero => omega
  | succ n ih =>
    by_cases h4 : 4 ≤ fp.avail
    · obtain ⟨e, fp', he⟩ := @ih (fp.skip 4) (by rw [Source.avail_skip]; omega)
      rw [readWords, Reader.exec_bind_ok (exec_payloadReadU32_ok h4)]
      exact ⟨e, fp', Reader.exec_bind_error he⟩
    · obtain ⟨e, fp', he⟩ := @exec_payloadReadU32_error σ fp s (by omega)
      exact ⟨e, fp', Reader.exec_bind_error he⟩

theorem exec_check_none (st : Source × σ) : (check none : Load σ Unit).exec st = (.ok (), st) := rfl

theorem exec_check_some (msg : String) (st : Source × σ) :
    (check (some msg) : Load σ Unit).exec st = (.error (.failed msg), st) := rfl

/-- The header a stream starts with. -/
def streamHeader (fp : Source) : PayloadHeader :=
  .ofWords (streamWords fp DS4_SESSION_PAYLOAD_U32_FIELDS)

theorem exec_readHeader_ok (h : 52 ≤ fp.avail)
    (hm : (streamHeader fp).magic = DS4_SESSION_PAYLOAD_MAGIC ∧
      (streamHeader fp).version = DS4_SESSION_PAYLOAD_VERSION) :
    readHeader.exec (fp, s) = (.ok (streamHeader fp), fp.skip 52, s) := by
  have hw := @exec_readWords_ok σ fp s DS4_SESSION_PAYLOAD_U32_FIELDS h
  unfold streamHeader at hm ⊢
  rw [readHeader, Reader.exec_bind_ok hw, if_pos hm]
  rfl

theorem exec_readHeader_error
    (h : ¬ (52 ≤ fp.avail ∧ (streamHeader fp).magic = DS4_SESSION_PAYLOAD_MAGIC ∧
      (streamHeader fp).version = DS4_SESSION_PAYLOAD_VERSION)) :
    ∃ e fp', readHeader.exec (fp, s) = (.error (.failed e), fp', s) := by
  unfold streamHeader at h
  by_cases h52 : 52 ≤ fp.avail
  · have hw := @exec_readWords_ok σ fp s DS4_SESSION_PAYLOAD_U32_FIELDS h52
    rw [readHeader, Reader.exec_bind_ok hw, if_neg fun hm => h ⟨h52, hm⟩]
    exact ⟨_, _, rfl⟩
  · have h13 : fp.avail < 4 * DS4_SESSION_PAYLOAD_U32_FIELDS := Nat.lt_of_not_le h52
    obtain ⟨e, fp', he⟩ := @exec_readWords_error σ fp s _ h13
    exact ⟨e, fp', Reader.exec_bind_error he⟩

variable {msg : String} {grow : Nat → Nat → σ → σ} {fits : Nat → Nat → σ → Bool}

/-- The state after room is made for every counter. -/
def growAll (grow : Nat → Nat → σ → σ) : List Nat → List Nat → σ → σ
  | il :: ils, v :: vs, s => growAll grow ils vs (grow il v s)
  | _, _, s => s

/-- Every counter fits when its turn comes. -/
def AllFit (grow : Nat → Nat → σ → σ) (fits : Nat → Nat → σ → Bool) :
    List Nat → List Nat → σ → Prop
  | il :: ils, v :: vs, s =>
    fits il v (grow il v s) = true ∧ AllFit grow fits ils vs (grow il v s)
  | _, _, _ => True

theorem exec_readCounts_ok {ils : List Nat} (h : 4 * ils.length ≤ fp.avail)
    (hfit : AllFit grow fits ils (streamWords fp ils.length) s) :
    (readCounts msg grow fits ils).exec (fp, s) =
      (.ok (streamWords fp ils.length), fp.skip (4 * ils.length),
        growAll grow ils (streamWords fp ils.length) s) := by
  induction ils generalizing fp s with
  | nil => rfl
  | cons il ils ih =>
    rw [List.length_cons] at h
    obtain ⟨hhead, htail⟩ := hfit
    have hrest := ih (by rw [Source.avail_skip]; omega) htail
    rw [Source.skip_skip] at hrest
    rw [readCounts, Reader.exec_bind_ok (exec_payloadReadU32_ok (by omega)),
      Reader.exec_bind_ok (Reader.exec_modifyState _ _),
      Reader.exec_bind_ok (Reader.exec_getState _), if_pos hhead, Reader.exec_bind_ok hrest,
      List.length_cons, Nat.mul_succ, Nat.add_comm (4 * ils.length)]
    rfl

/-- Otherwise the counters are refused, and only room has been made. -/
theorem exec_readCounts_error {R : σ → σ → Prop} (hrefl : ∀ s, R s s)
    (hgrow : ∀ {s s' : σ} (il v : Nat), R s s' → R s (grow il v s')) {ils : List Nat}
    (h : ¬ (4 * ils.length ≤ fp.avail ∧ AllFit grow fits ils (streamWords fp ils.length) s)) :
    ∃ e fp' s', (readCounts msg grow fits ils).exec (fp, s) = (.error (.failed e), fp', s') ∧
      R s s' := by
  suffices H : ∀ s₀, R s₀ s → ∃ e fp' s',
      (readCounts msg grow fits ils).exec (fp, s) = (.error (.failed e), fp', s') ∧ R s₀ s' from
    H s (hrefl s)
  intro s₀ hs
  induction ils generalizing fp s with
  | nil => exact absurd ⟨Nat.zero_le _, trivial⟩ h
  | cons il ils ih =>
    rw [List.length_cons] at h
    by_cases h4 : 4 ≤ fp.avail
    · rw [readCounts, Reader.exec_bind_ok (exec_payloadReadU32_ok h4),
        Reader.exec_bind_ok (Reader.exec_modifyState _ _),
        Reader.exec_bind_ok (Reader.exec_getState _)]
      dsimp only
      by_cases hfit : fits il (payloadGetU32 (fp.peek 4)) (grow il (payloadGetU32 (fp.peek 4)) s)
      · have hrest := @ih (fp.skip 4) (grow il (payloadGetU32 (fp.peek 4)) s)
          (fun hr => h ⟨by rw [Source.avail_skip] at hr; omega, hfit, hr.2⟩) (hgrow _ _ hs)
        obtain ⟨e, fp', s', he, hR⟩ := hrest
        rw [if_pos hfit]
        exact ⟨e, fp', s', Reader.exec_bind_error he, hR⟩
      · rw [if_neg hfit]
        exact ⟨_, _, _, rfl, hgrow _ _ hs⟩
    · obtain ⟨e, fp', he⟩ := @exec_payloadReadU32_error σ fp s (by omega)
      exact ⟨e, fp', s, Reader.exec_bind_error he, hs⟩

end exec

/-- The part of `ds4_session` that is the same on both back ends. -/
structure Host where
  ctxSize : Nat
  prefillCap : Nat
  checkpoint : List Int
  checkpointValid : Bool
  logits : List UInt8
  mtpDraftValid : Bool

end DS4.Checkpoint
