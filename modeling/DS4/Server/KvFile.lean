import DS4.KvStore.Written
import DS4.Server.ToolMap

namespace DS4.Server

/-!
# Server — the cache files of two implementations

The server has its own copy of the header codec, the touch and the trailer rewrite of the KV cache, and
works on the same files.  Its reader knows the reasons up to a shutdown.

* `kvFillHeader`, `kvReadHeader`, `kvCacheTouchFile`, `kvCacheRewriteToolMap` — the server's copies.
* `CacheFile` — a file by its parts, as either of the two writes it.
* `cache_files_agree` — what the two do to such a file, part by part.
* `not_cache_files_agree_agentSession` — a session of the agent, touched by the server.
-/

open DS4.Lib DS4.KvStore

/-! ### The server's copies -/

/-- `KV_CACHE_FIXED_HEADER` -/
def KV_CACHE_FIXED_HEADER : Nat := 48

/-- `KV_REASON_SHUTDOWN` -/
def KV_REASON_SHUTDOWN : UInt8 := 4

/-- `KV_REASON_UNKNOWN` -/
def KV_REASON_UNKNOWN : UInt8 := 0

/-- `KV_EXT_TOOL_MAP` -/
def KV_EXT_TOOL_MAP : UInt8 := 1

/-- `kv_fill_header`, which is `ds4_kvstore_fill_header` again. -/
def kvFillHeader (quantBits reason extFlags : UInt8)
    (tokens hits ctxSize createdAt lastUsed payloadBytes : Nat) : List UInt8 :=
  fillHeader quantBits reason extFlags tokens hits ctxSize createdAt lastUsed payloadBytes

/-- The fields of the header, as the server reads them. -/
def kvHeaderOf (bytes : Bytes) : Header :=
  { headerOf bytes with
    reason := if bytes.getD 5 0 ≤ KV_REASON_SHUTDOWN then bytes.getD 5 0 else KV_REASON_UNKNOWN }

/-- `kv_read_header` -/
def kvReadHeader (bytes : Bytes) : Option Header :=
  if bytes.length < KV_CACHE_FIXED_HEADER then none
  else if bytes.take 4 ≠ kvMagic then none
  else if bytes.length < KV_CACHE_FIXED_HEADER + 4 then none
  else
    let e := kvHeaderOf bytes
    if e.tokens ≠ 0 ∧ (e.quantBits = 2 ∨ e.quantBits = 4) then some e else none

/-- `kv_cache_touch_file` -/
def kvCacheTouchFile (hits now : Nat) (bytes : Bytes) : Bytes :=
  match kvReadHeader bytes with
  | none   => bytes
  | some e =>
    kvFillHeader e.quantBits e.reason e.extFlags e.tokens hits e.ctxSize e.createdAt now
      e.payloadBytes ++ bytes.drop KV_CACHE_FIXED_HEADER

/-- What `kv_cache_rewrite_tool_map` makes of a file, and of the tool memory. -/
def kvCacheRewriteToolMap (disabled : Bool) (m : ToolMemory) (now : Nat) (text bytes : Bytes) :
    ToolMemory × Bytes :=
  if m.toolMemoryCountDsmlInText disabled text = 0 then (m, bytes)
  else
    match kvReadHeader bytes with
    | none     => (m, bytes)
    | some hdr =>
      let stop := (KV_CACHE_FIXED_HEADER + 4 + hdr.textBytes + hdr.payloadBytes) % 0x10000000000000000
      if INT64_MAX < stop then (m, bytes)
      else
        let (m', ok, trailer, reported) := m.kvToolMapWrite disabled text
        let written := truncate bytes stop ++ trailer
        if ok && 0 < reported then
          (m', kvFillHeader hdr.quantBits hdr.reason (hdr.extFlags ||| KV_EXT_TOOL_MAP) hdr.tokens
            hdr.hits hdr.ctxSize hdr.createdAt now hdr.payloadBytes ++
              written.drop KV_CACHE_FIXED_HEADER)
        else (m', written)

/-- **The two readers** differ in the reason only. -/
theorem kvReadHeader_eq (bytes : Bytes) :
    kvReadHeader bytes = (readHeader bytes).map fun e =>
      { e with
        reason := if bytes.getD 5 0 ≤ KV_REASON_SHUTDOWN then bytes.getD 5 0 else KV_REASON_UNKNOWN } := by
  unfold kvReadHeader readHeader
  have h48 : KV_CACHE_FIXED_HEADER = DS4_KVSTORE_FIXED_HEADER := rfl
  rw [h48]
  by_cases hlen : bytes.length < DS4_KVSTORE_FIXED_HEADER
  · rw [if_pos hlen, if_pos hlen]
    rfl
  · rw [if_neg hlen, if_neg hlen]
    by_cases hmagic : bytes.take 4 ≠ kvMagic
    · rw [if_pos hmagic, if_pos hmagic]
      rfl
    · rw [if_neg hmagic, if_neg hmagic]
      by_cases htext : bytes.length < DS4_KVSTORE_FIXED_HEADER + 4
      · rw [if_pos htext, if_pos htext]
        rfl
      · rw [if_neg htext, if_neg htext]
        dsimp only
        have hsame : ((kvHeaderOf bytes).tokens ≠ 0 ∧
            ((kvHeaderOf bytes).quantBits = 2 ∨ (kvHeaderOf bytes).quantBits = 4)) ↔
            ((headerOf bytes).tokens ≠ 0 ∧
              ((headerOf bytes).quantBits = 2 ∨ (headerOf bytes).quantBits = 4)) := Iff.rfl
        by_cases hok : (headerOf bytes).tokens ≠ 0 ∧
            ((headerOf bytes).quantBits = 2 ∨ (headerOf bytes).quantBits = 4)
        · rw [if_pos (hsame.mpr hok), if_pos hok]
          rfl
        · rw [if_neg (mt hsame.mp hok), if_neg hok]
          rfl

/-! ### Files by their parts -/

/-- A cache file: the fields of its header, its text, its payload and its trailer. -/
structure CacheFile where
  quantBits : UInt8
  reason : UInt8
  extFlags : UInt8
  tokens : Nat
  hits : Nat
  ctxSize : Nat
  createdAt : Nat
  lastUsed : Nat
  text : Bytes
  payload : Bytes
  trailer : Bytes

namespace CacheFile

variable {f : CacheFile}

/-- The header that either of the two fills in. -/
def head (f : CacheFile) : Bytes :=
  fillHeader f.quantBits f.reason f.extFlags f.tokens f.hits f.ctxSize f.createdAt f.lastUsed
    f.payload.length

/-- The bytes of the file. -/
def bytes (f : CacheFile) : Bytes :=
  f.head ++ (leBytes 4 f.text.length ++ f.text ++ f.payload ++ f.trailer)

/-- The header, as it is read. -/
def header (f : CacheFile) : Header where
  quantBits := f.quantBits
  reason := f.reason
  extFlags := f.extFlags
  tokens := f.tokens
  hits := f.hits
  ctxSize := f.ctxSize
  createdAt := f.createdAt
  lastUsed := f.lastUsed
  payloadBytes := f.payload.length
  textBytes := f.text.length

/-- A file that the program writes: the fields have their widths, and the reason is one of its
    reasons. -/
structure Valid (f : CacheFile) : Prop where
  quantBits : f.quantBits = 2 ∨ f.quantBits = 4
  reason : f.reason ≤ DS4_KVSTORE_REASON_AGENT_SESSION
  pos : f.tokens ≠ 0
  tokens : f.tokens < 256 ^ 4
  hits : f.hits < 256 ^ 4
  ctxSize : f.ctxSize < 256 ^ 4
  createdAt : f.createdAt < 256 ^ 8
  lastUsed : f.lastUsed < 256 ^ 8
  text : f.text.length < 256 ^ 4
  size : 52 + f.text.length + f.payload.length < 256 ^ 8

/-- The file after a hit. -/
def touched (f : CacheFile) (hits now : Nat) : CacheFile := { f with hits := hits, lastUsed := now }

/-- The file with another trailer, by what was written and how much was reported: only a trailer that
    was reported is flagged. -/
def retrailed (f : CacheFile) (now : Nat) (flag : UInt8) (written : Bool × Bytes × Nat) : CacheFile :=
  if written.1 && 0 < written.2.2 then
    { f with trailer := written.2.1, extFlags := f.extFlags ||| flag, lastUsed := now }
  else { f with trailer := written.2.1 }

/-- Where the trailer starts. -/
def stop (f : CacheFile) : Nat := 52 + f.text.length + f.payload.length

theorem head_length (f : CacheFile) : f.head.length = 48 := fillHeader_length ..

/-- **A file is read** as it was written. -/
theorem readHeader_bytes (h : f.Valid) : readHeader f.bytes = some f.header := by
  have hsize := h.size
  have hread := @readHeader_fillHeader f.quantBits f.reason f.extFlags f.tokens f.hits f.ctxSize
    f.createdAt f.lastUsed f.payload.length (leBytes 4 f.text.length ++ f.text ++ f.payload ++ f.trailer)
    h.quantBits h.reason h.pos h.tokens h.ctxSize (by omega)
    (by rw [List.append_assoc, List.append_assoc, List.length_append, leBytes_length]; omega)
  have htext : leValue ((leBytes 4 f.text.length ++ f.text ++ f.payload ++ f.trailer).take 4) =
      f.text.length := by
    rw [List.append_assoc, List.append_assoc, List.take_left' (leBytes_length 4 _),
      leValue_leBytes_of_lt h.text]
  rw [htext, Nat.mod_eq_of_lt h.hits, Nat.mod_eq_of_lt h.createdAt, Nat.mod_eq_of_lt h.lastUsed] at hread
  exact hread

/-- **The server reads** it so too, if it knows the reason. -/
theorem kvReadHeader_bytes (h : f.Valid) (hreason : f.reason ≤ KV_REASON_SHUTDOWN) :
    kvReadHeader f.bytes = some f.header := by
  have h5 : f.bytes.getD 5 0 = f.reason := rfl
  rw [kvReadHeader_eq, readHeader_bytes h, Option.map_some, h5, if_pos hreason]
  rfl

theorem drop_bytes (f : CacheFile) :
    f.bytes.drop 48 = leBytes 4 f.text.length ++ f.text ++ f.payload ++ f.trailer := by
  unfold bytes
  exact List.drop_left' f.head_length

/-- The file up to its trailer. -/
theorem truncate_bytes (f : CacheFile) (trailer : Bytes) :
    truncate f.bytes f.stop ++ trailer = ({ f with trailer := trailer } : CacheFile).bytes := by
  have hsplit : f.bytes = (f.head ++ (leBytes 4 f.text.length ++ f.text ++ f.payload)) ++ f.trailer := by
    unfold bytes
    rw [List.append_assoc f.head]
  have hlen : (f.head ++ (leBytes 4 f.text.length ++ f.text ++ f.payload)).length = f.stop := by
    rw [List.length_append, List.length_append, List.length_append, leBytes_length, head_length]
    unfold stop
    omega
  have htake : f.bytes.take f.stop = f.head ++ (leBytes 4 f.text.length ++ f.text ++ f.payload) := by
    rw [hsplit]
    exact List.take_left' hlen
  rw [truncate_of_le (by rw [hsplit, List.length_append]; omega), htake, List.append_assoc]
  rfl

/-- A header filled in again before a file with another trailer. -/
theorem fill_retrailed (f : CacheFile) (x : UInt8) (now : Nat) (trailer : Bytes) :
    fillHeader f.quantBits f.reason x f.tokens f.hits f.ctxSize f.createdAt now f.payload.length ++
        (truncate f.bytes f.stop ++ trailer).drop 48 =
      ({ f with trailer := trailer, extFlags := x, lastUsed := now } : CacheFile).bytes := by
  rw [truncate_bytes, drop_bytes]
  rfl

/-- **A touch** through the store. -/
theorem touchFile_bytes (h : f.Valid) (hits now : Nat) :
    touchFile hits now f.bytes = (f.touched hits now).bytes := by
  unfold touchFile
  rw [readHeader_bytes h]
  dsimp only
  rw [show DS4_KVSTORE_FIXED_HEADER = 48 from rfl, drop_bytes]
  rfl

/-- **A touch** through the server. -/
theorem kvCacheTouchFile_bytes (h : f.Valid) (hreason : f.reason ≤ KV_REASON_SHUTDOWN)
    (hits now : Nat) : kvCacheTouchFile hits now f.bytes = (f.touched hits now).bytes := by
  unfold kvCacheTouchFile
  rw [kvReadHeader_bytes h hreason]
  dsimp only
  rw [show KV_CACHE_FIXED_HEADER = 48 from rfl, drop_bytes]
  rfl

/-- **Another trailer** through the store. -/
theorem withTrailer_bytes (h : f.Valid) (now : Nat) (hooks : TrailerHooks) (text : Bytes) :
    withTrailer now hooks text f.bytes =
      if INT64_MAX < f.stop then f.bytes
      else (f.retrailed now hooks.extFlag (trailerWrite (some hooks) text)).bytes := by
  have hstop : DS4_KVSTORE_FIXED_HEADER + 4 + f.header.textBytes + f.header.payloadBytes = f.stop := rfl
  unfold withTrailer
  rw [readHeader_bytes h]
  dsimp only
  rw [hstop]
  by_cases hmax : INT64_MAX < f.stop
  · rw [if_pos hmax, if_pos hmax]
  · rw [if_neg hmax, if_neg hmax]
    unfold retrailed
    split
    · exact fill_retrailed f _ now _
    · exact truncate_bytes f _

/-- **Another trailer** through the server. -/
theorem kvCacheRewriteToolMap_bytes (h : f.Valid) (hreason : f.reason ≤ KV_REASON_SHUTDOWN)
    (disabled : Bool) (m : ToolMemory) (now : Nat) (text : Bytes) :
    (kvCacheRewriteToolMap disabled m now text f.bytes).2 =
      if m.toolMemoryCountDsmlInText disabled text = 0 ∨ INT64_MAX < f.stop then f.bytes
      else (f.retrailed now KV_EXT_TOOL_MAP (m.kvToolMapWrite disabled text).2).bytes := by
  have hsize := h.size
  have hstop : (KV_CACHE_FIXED_HEADER + 4 + f.header.textBytes + f.header.payloadBytes) %
      0x10000000000000000 = f.stop := Nat.mod_eq_of_lt hsize
  unfold kvCacheRewriteToolMap
  by_cases hcount : m.toolMemoryCountDsmlInText disabled text = 0
  · rw [if_pos hcount, if_pos (Or.inl hcount)]
  · rw [if_neg hcount, kvReadHeader_bytes h hreason]
    dsimp only
    rw [hstop]
    by_cases hmax : INT64_MAX < f.stop
    · rw [if_pos hmax, if_pos (Or.inr hmax)]
    · rw [if_neg hmax, if_neg (not_or.mpr ⟨hcount, hmax⟩)]
      unfold retrailed
      split
      · exact fill_retrailed f _ now _
      · exact truncate_bytes f _

/-- A header is filled in again as it was. -/
theorem head_eq_take (f : CacheFile) : f.head = f.bytes.take 48 := (List.take_left' f.head_length).symm

end CacheFile

/-- **The two implementations agree** on the files that the program writes: both read what was filled in
    and fill in what was read, a touch changes hits and time only, and a rewrite the trailer, its flag
    and the time; the server where it knows the reason. -/
theorem cache_files_agree {f : CacheFile} (h : f.Valid) :
    (∃ e, readHeader f.bytes = some e ∧ e = f.header ∧
      fillHeader e.quantBits e.reason e.extFlags e.tokens e.hits e.ctxSize e.createdAt e.lastUsed
        e.payloadBytes = f.bytes.take 48) ∧
    (∀ hits now, touchFile hits now f.bytes = (f.touched hits now).bytes) ∧
    (∀ now hooks text, withTrailer now hooks text f.bytes =
      if INT64_MAX < f.stop then f.bytes
      else (f.retrailed now hooks.extFlag (trailerWrite (some hooks) text)).bytes) ∧
    (f.reason ≤ KV_REASON_SHUTDOWN →
      (∃ e, kvReadHeader f.bytes = some e ∧ e = f.header ∧
        kvFillHeader e.quantBits e.reason e.extFlags e.tokens e.hits e.ctxSize e.createdAt e.lastUsed
          e.payloadBytes = f.bytes.take 48) ∧
      (∀ hits now, kvCacheTouchFile hits now f.bytes = (f.touched hits now).bytes) ∧
      ∀ disabled m now text, (kvCacheRewriteToolMap disabled m now text f.bytes).2 =
        if m.toolMemoryCountDsmlInText disabled text = 0 ∨ INT64_MAX < f.stop then f.bytes
        else (f.retrailed now KV_EXT_TOOL_MAP (m.kvToolMapWrite disabled text).2).bytes) :=
  ⟨⟨f.header, CacheFile.readHeader_bytes h, rfl, f.head_eq_take⟩,
    fun hits now => CacheFile.touchFile_bytes h hits now,
    fun now hooks text => CacheFile.withTrailer_bytes h now hooks text,
    fun hreason => ⟨⟨f.header, CacheFile.kvReadHeader_bytes h hreason, rfl, f.head_eq_take⟩,
      fun hits now => CacheFile.kvCacheTouchFile_bytes h hreason hits now,
      fun disabled m now text => CacheFile.kvCacheRewriteToolMap_bytes h hreason disabled m now text⟩⟩

/-! #### A session of the agent -/

/-- A file of one token with this reason. -/
def tokenFileOf (reason : UInt8) : CacheFile where
  quantBits := 2
  reason := reason
  extFlags := 0
  tokens := 1
  hits := 0
  ctxSize := 4096
  createdAt := 0
  lastUsed := 0
  text := [0x61]
  payload := []
  trailer := []

theorem valid_tokenFileOf {reason : UInt8} (h : reason ≤ DS4_KVSTORE_REASON_AGENT_SESSION) :
    (tokenFileOf reason).Valid where
  quantBits := Or.inl rfl
  reason := h
  pos := (by decide : (1 : Nat) ≠ 0)
  tokens := (by decide : (1 : Nat) < 256 ^ 4)
  hits := (by decide : (0 : Nat) < 256 ^ 4)
  ctxSize := (by decide : (4096 : Nat) < 256 ^ 4)
  createdAt := (by decide : (0 : Nat) < 256 ^ 8)
  lastUsed := (by decide : (0 : Nat) < 256 ^ 8)
  text := (by decide : (1 : Nat) < 256 ^ 4)
  size := (by decide : (52 + 1 + 0 : Nat) < 256 ^ 8)

/-- A cold store, touched by the server. -/
theorem cache_files_agree_cold : kvCacheTouchFile 1 0 (tokenFileOf 1).bytes =
    ((tokenFileOf 1).touched 1 0).bytes :=
  ((cache_files_agree (valid_tokenFileOf (by decide))).2.2.2 (by decide)).2.1 1 0

/-- Hooks that write a trailer of one byte. -/
def oneByteTrailer : TrailerHooks where
  extFlag := 1
  serializedSize := some fun _ => some 1
  write := some fun _ => (true, [0x74], 1)

/-- A session of the agent: a touch through the server takes its reason away, and a rewrite sets the
    flag of the trailer. -/
theorem not_cache_files_agree_agentSession : (tokenFileOf 6).Valid ∧
    kvCacheTouchFile 1 0 (tokenFileOf 6).bytes ≠ ((tokenFileOf 6).touched 1 0).bytes ∧
    withTrailer 0 oneByteTrailer [0x61] (tokenFileOf 6).bytes ≠
      ({ tokenFileOf 6 with trailer := [0x74] } : CacheFile).bytes :=
  ⟨valid_tokenFileOf (by decide), by decide +kernel, by decide +kernel⟩

end DS4.Server
