import DS4.KvStore.Sha1

namespace DS4.KvStore

/-!
# The KV cache — cache files

A file is a header of 48 bytes, the length of the text, the text, the payload, and what a protocol
has appended as a trailer.

* `Header`, `fillHeader`, `readHeader` — the header and the length of the text;
  `readHeader_fillHeader` is the round trip.
* `Entry`, `readEntryFile` — a file as the directory scan sees it.
* `touchFile` — a hit recorded in place.
-/

open DS4.Lib

/-! ### Headers -/

/-- `DS4_KVSTORE_FIXED_HEADER` -/
def DS4_KVSTORE_FIXED_HEADER : Nat := 48

/-- `DS4_KVSTORE_REASON_AGENT_SESSION`, the last reason. -/
def DS4_KVSTORE_REASON_AGENT_SESSION : UInt8 := 6

/-- `UINT32_MAX` -/
def UINT32_MAX : Nat := 0xffffffff

/-- `UINT64_MAX` -/
def UINT64_MAX : Nat := 0xffffffffffffffff

/-- What `ds4_kvstore_read_header` fills in. -/
structure Header where
  quantBits : UInt8
  reason : UInt8
  extFlags : UInt8
  tokens : Nat
  hits : Nat
  ctxSize : Nat
  createdAt : Nat
  lastUsed : Nat
  payloadBytes : Nat
  textBytes : Nat

/-- `KV_CACHE_MAGIC0`, `KV_CACHE_MAGIC1`, `KV_CACHE_MAGIC2` and `KV_CACHE_VERSION` -/
def kvMagic : List UInt8 := [0x4b, 0x56, 0x43, 1]

/-- `ds4_kvstore_fill_header` -/
def fillHeader (quantBits reason extFlags : UInt8)
    (tokens hits ctxSize createdAt lastUsed payloadBytes : Nat) : List UInt8 :=
  kvMagic ++ [quantBits, reason, extFlags, 0] ++ leBytes 4 tokens ++ leBytes 4 hits ++
    leBytes 4 ctxSize ++ [0, 0, 0, 0] ++ leBytes 8 createdAt ++ leBytes 8 lastUsed ++
    leBytes 8 payloadBytes

/-- `ds4_kvstore_le_get32` and `kv_le_get64` at an offset. -/
def getLe (bytes : List UInt8) (off w : Nat) : Nat := leValue ((bytes.drop off).take w)

/-- The fields of the header. -/
def headerOf (bytes : List UInt8) : Header where
  quantBits := bytes.getD 4 0
  reason := if bytes.getD 5 0 ≤ DS4_KVSTORE_REASON_AGENT_SESSION then bytes.getD 5 0 else 0
  extFlags := bytes.getD 6 0
  tokens := getLe bytes 8 4
  hits := getLe bytes 12 4
  ctxSize := getLe bytes 16 4
  createdAt := getLe bytes 24 8
  lastUsed := getLe bytes 32 8
  payloadBytes := getLe bytes 40 8
  textBytes := getLe bytes 48 4

/-- `ds4_kvstore_read_header` -/
def readHeader (bytes : List UInt8) : Option Header :=
  if bytes.length < DS4_KVSTORE_FIXED_HEADER then none
  else if bytes.take 4 ≠ kvMagic then none
  else if bytes.length < DS4_KVSTORE_FIXED_HEADER + 4 then none
  else
    let e := headerOf bytes
    if e.tokens ≠ 0 ∧ (e.quantBits = 2 ∨ e.quantBits = 4) then some e else none

/-- What a readable header says. -/
structure Header.Readable (e : Header) (bytes : List UInt8) : Prop where
  length : DS4_KVSTORE_FIXED_HEADER + 4 ≤ bytes.length
  magic : bytes.take 4 = kvMagic
  eq : e = headerOf bytes
  tokens : e.tokens ≠ 0
  quantBits : e.quantBits = 2 ∨ e.quantBits = 4

theorem readHeader_eq_some_iff {bytes : List UInt8} {e : Header} :
    readHeader bytes = some e ↔ e.Readable bytes := by
  unfold readHeader
  constructor
  · intro h
    split at h
    · cases h
    · split at h
      · cases h
      · rename_i hmagic
        split at h
        · cases h
        · dsimp only at h
          split at h
          · rename_i hlen hok
            cases h
            exact ⟨Nat.le_of_not_lt hlen, not_not.mp hmagic, rfl, hok.1, hok.2⟩
          · cases h
  · intro h
    have hlen := h.length
    have hok := And.intro h.tokens h.quantBits
    rw [h.eq] at hok
    rw [if_neg (by omega), if_neg (not_not.mpr h.magic), if_neg (by omega)]
    dsimp only
    rw [if_pos hok, h.eq]

theorem getLe_lt (bytes : List UInt8) (off w : Nat) : getLe bytes off w < 256 ^ w := by
  have hlen : ((bytes.drop off).take w).length ≤ w := by
    rw [List.length_take]
    exact Nat.min_le_left ..
  exact Nat.lt_of_lt_of_le (leValue_lt _) (Nat.pow_le_pow_right (by decide) hlen)

/-! ### Only the first bytes count -/

theorem getLe_take {bytes : List UInt8} {n off w : Nat} (h : off + w ≤ n) :
    getLe (bytes.take n) off w = getLe bytes off w := by
  unfold getLe
  rw [List.drop_take, List.take_take, Nat.min_eq_left (by omega)]

theorem getD_take {bytes : List UInt8} {n i : Nat} (h : i < n) :
    (bytes.take n).getD i 0 = bytes.getD i 0 := by
  rw [List.getD_eq_getElem?_getD, List.getElem?_take_of_lt h, List.getD_eq_getElem?_getD]

theorem headerOf_take (bytes : List UInt8) : headerOf (bytes.take 52) = headerOf bytes := by
  unfold headerOf
  rw [getD_take (by decide), getD_take (by decide), getD_take (by decide), getLe_take (by decide),
    getLe_take (by decide), getLe_take (by decide), getLe_take (by decide), getLe_take (by decide),
    getLe_take (by decide), getLe_take (by decide)]

/-- A header is the same in a file with the same start. -/
theorem Header.Readable.congr {e : Header} {bytes bytes' : List UInt8} (h : e.Readable bytes)
    (hlen : 52 ≤ bytes'.length) (hstart : bytes'.take 52 = bytes.take 52) : e.Readable bytes' where
  length := hlen
  magic := by
    have h4 := congrArg (List.take 4) hstart
    rw [List.take_take, List.take_take] at h4
    exact h4.trans h.magic
  eq := by rw [h.eq, ← headerOf_take bytes, ← hstart, headerOf_take]
  tokens := h.tokens
  quantBits := h.quantBits

/-- The words of a readable header have their width. -/
structure Header.Sized (e : Header) : Prop where
  tokens : e.tokens < 256 ^ 4
  hits : e.hits < 256 ^ 4
  ctxSize : e.ctxSize < 256 ^ 4
  createdAt : e.createdAt < 256 ^ 8
  lastUsed : e.lastUsed < 256 ^ 8
  payloadBytes : e.payloadBytes < 256 ^ 8
  textBytes : e.textBytes < 256 ^ 4
  reason : e.reason ≤ DS4_KVSTORE_REASON_AGENT_SESSION

theorem headerOf_sized (bytes : List UInt8) : (headerOf bytes).Sized where
  tokens := getLe_lt ..
  hits := getLe_lt ..
  ctxSize := getLe_lt ..
  createdAt := getLe_lt ..
  lastUsed := getLe_lt ..
  payloadBytes := getLe_lt ..
  textBytes := getLe_lt ..
  reason := by
    show (if _ then _ else _) ≤ DS4_KVSTORE_REASON_AGENT_SESSION
    split
    · assumption
    · decide

theorem Header.Readable.sized {e : Header} {bytes : List UInt8} (h : e.Readable bytes) : e.Sized := by
  rw [h.eq]
  exact headerOf_sized bytes

theorem fillHeader_length (q r x : UInt8) (t n c a u p : Nat) :
    (fillHeader q r x t n c a u p).length = DS4_KVSTORE_FIXED_HEADER := rfl

/-- **Round trip.** A header is read as it was filled in. -/
theorem readHeader_fillHeader {q r x : UInt8} {t n c a u p : Nat} {rest : List UInt8}
    (hq : q = 2 ∨ q = 4) (hr : r ≤ DS4_KVSTORE_REASON_AGENT_SESSION) (ht : t ≠ 0)
    (htlt : t < 256 ^ 4) (hc : c < 256 ^ 4) (hp : p < 256 ^ 8) (hrest : 4 ≤ rest.length) :
    readHeader (fillHeader q r x t n c a u p ++ rest) =
      some { quantBits := q, reason := r, extFlags := x, tokens := t, hits := n % 256 ^ 4,
             ctxSize := c, createdAt := a % 256 ^ 8, lastUsed := u % 256 ^ 8, payloadBytes := p,
             textBytes := leValue (rest.take 4) } := by
  have htext : headerOf (fillHeader q r x t n c a u p ++ rest) =
      { quantBits := q, reason := if r ≤ DS4_KVSTORE_REASON_AGENT_SESSION then r else 0,
        extFlags := x, tokens := leValue (leBytes 4 t), hits := leValue (leBytes 4 n),
        ctxSize := leValue (leBytes 4 c), createdAt := leValue (leBytes 8 a),
        lastUsed := leValue (leBytes 8 u), payloadBytes := leValue (leBytes 8 p),
        textBytes := leValue (rest.take 4) } := rfl
  rw [if_pos hr, leValue_leBytes_of_lt htlt, leValue_leBytes, leValue_leBytes_of_lt hc,
    leValue_leBytes, leValue_leBytes, leValue_leBytes_of_lt hp] at htext
  refine (readHeader_eq_some_iff).mpr ⟨?_, rfl, htext.symm, ht, hq⟩
  rw [List.length_append, fillHeader_length]
  omega

/-! ### Entries -/

/-- `ds4_kvstore_entry`; `name` is the path without the directory. -/
structure Entry extends Header where
  sha : List UInt8
  name : Name
  fileSize : Nat

/-- `ds4_kvstore_read_entry_file` on a file with these bytes. -/
def readEntryFile (name : Name) (sha : List UInt8) (bytes : List UInt8) : Option Entry :=
  if bytes.length < DS4_KVSTORE_FIXED_HEADER + 4 then none
  else
    match readHeader bytes with
    | none => none
    | some e =>
      let fixed := DS4_KVSTORE_FIXED_HEADER + 4
      if UINT64_MAX - fixed < e.textBytes ∨ UINT64_MAX - fixed - e.textBytes < e.payloadBytes then none
      else if bytes.length < fixed + e.textBytes + e.payloadBytes then none
      else some { e with sha := sha, name := name, fileSize := bytes.length }

/-- The text of a file, if the file has so many bytes. -/
def textOf (bytes : List UInt8) (n : Nat) : List UInt8 := (bytes.drop 52).take n

/-- A file that holds the text and the payload that its header announces. -/
structure Whole (e : Header) (bytes : List UInt8) : Prop extends e.Readable bytes where
  noWrap : 52 + e.textBytes + e.payloadBytes ≤ UINT64_MAX
  size : 52 + e.textBytes + e.payloadBytes ≤ bytes.length

theorem readEntryFile_eq_some_iff {name : Name} {sha bytes : List UInt8} {e : Entry} :
    readEntryFile name sha bytes = some e ↔
      Whole e.toHeader bytes ∧ e.sha = sha ∧ e.name = name ∧ e.fileSize = bytes.length := by
  unfold readEntryFile
  constructor
  · intro h
    split at h
    · cases h
    · split at h
      · cases h
      · rename_i e' he'
        dsimp only at h
        split at h
        · cases h
        · rename_i hwrap
          split at h
          · cases h
          · rename_i hsize
            cases h
            unfold DS4_KVSTORE_FIXED_HEADER UINT64_MAX at hwrap
            unfold DS4_KVSTORE_FIXED_HEADER at hsize
            have hnoWrap : 52 + e'.textBytes + e'.payloadBytes ≤ UINT64_MAX := by
              unfold UINT64_MAX
              omega
            have hfits : 52 + e'.textBytes + e'.payloadBytes ≤ bytes.length := by omega
            exact ⟨{ (readHeader_eq_some_iff).mp he' with noWrap := hnoWrap, size := hfits },
              rfl, rfl, rfl⟩
  · rintro ⟨hw, rfl, rfl, hsize⟩
    have hread := (readHeader_eq_some_iff).mpr hw.toReadable
    have hlen := hw.length
    have hnoWrap := hw.noWrap
    have hfits := hw.size
    unfold UINT64_MAX at hnoWrap
    rw [if_neg (Nat.not_lt.mpr hlen), hread]
    dsimp only
    rw [if_neg (by unfold DS4_KVSTORE_FIXED_HEADER UINT64_MAX; omega),
      if_neg (by unfold DS4_KVSTORE_FIXED_HEADER; omega), ← hsize]

/-- `ds4_kvstore_touch_file`: the header again, with these hits and this time. -/
def touchFile (hits now : Nat) (bytes : List UInt8) : List UInt8 :=
  match readHeader bytes with
  | none => bytes
  | some e =>
    fillHeader e.quantBits e.reason e.extFlags e.tokens hits e.ctxSize e.createdAt now
      e.payloadBytes ++ bytes.drop DS4_KVSTORE_FIXED_HEADER

/-- **A header filled in again** for a whole file: what is behind it stays. -/
theorem Whole.refill {e : Header} {bytes : List UInt8} (h : Whole e bytes) (x : UInt8)
    (n u : Nat) {tail : List UInt8} (htail : 52 + e.textBytes + e.payloadBytes ≤ 48 + tail.length)
    (htext : tail.take 4 = (bytes.drop 48).take 4) :
    Whole { e with extFlags := x, hits := n % 256 ^ 4, lastUsed := u % 256 ^ 8 }
      (fillHeader e.quantBits e.reason x e.tokens n e.ctxSize e.createdAt u e.payloadBytes ++ tail) := by
  have hs := h.toReadable.sized
  have hlen := fillHeader_length e.quantBits e.reason x e.tokens n e.ctxSize e.createdAt u
    e.payloadBytes
  have hread := @readHeader_fillHeader e.quantBits e.reason x e.tokens n e.ctxSize e.createdAt u
    e.payloadBytes tail h.quantBits hs.reason h.tokens hs.tokens hs.ctxSize hs.payloadBytes (by omega)
  have htb : leValue (tail.take 4) = e.textBytes := by
    rw [htext, h.eq]
    rfl
  rw [htb, Nat.mod_eq_of_lt hs.createdAt] at hread
  refine { (readHeader_eq_some_iff).mp hread with noWrap := h.noWrap, size := ?_ }
  rw [List.length_append, hlen]
  exact htail

end DS4.KvStore
