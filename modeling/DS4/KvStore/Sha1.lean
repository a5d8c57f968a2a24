import DS4.Lib.Bytes

namespace DS4.KvStore

/-!
# The KV cache — file names

A cache file is named by the SHA-1 of the text whose checkpoint it holds, in lower-case hex
digits.  The context of the hash takes the bytes one at a time here; `sha1_update` copies as many
as the block has room for.

* `sha1BytesHex` — the digest in hex digits.
* `shaHexName`, `pathForSha` — from a file name to the digits, and back.
-/

open DS4.Lib

/-! ### The hash -/

/-- The five words of the state. -/
structure Sha1Words where
  h0 : UInt32
  h1 : UInt32
  h2 : UInt32
  h3 : UInt32
  h4 : UInt32

/-- `sha1_ctx`; `block` holds the `used` bytes. -/
structure Sha1Ctx where
  h : Sha1Words
  bytes : UInt64
  block : List UInt8

/-- `rol32` -/
def rol32 (v : UInt32) (n : UInt32) : UInt32 := (v <<< n) ||| (v >>> (32 - n))

/-- The big-endian word at `4 * i`. -/
def blockWord (block : List UInt8) (i : Nat) : UInt32 :=
  ((block.getD (i * 4) 0).toUInt32 <<< 24) ||| ((block.getD (i * 4 + 1) 0).toUInt32 <<< 16) |||
    ((block.getD (i * 4 + 2) 0).toUInt32 <<< 8) ||| (block.getD (i * 4 + 3) 0).toUInt32

/-- The schedule `w`, the last word first; each of the `n` words more is made of four before it. -/
def sha1Schedule : Nat → List UInt32 → List UInt32
  | 0, w     => w
  | n + 1, w =>
    sha1Schedule n (rol32 (w.getD 2 0 ^^^ w.getD 7 0 ^^^ w.getD 13 0 ^^^ w.getD 15 0) 1 :: w)

/-- One round with the word `w`. -/
def sha1Round (s : Sha1Words) (i : Nat) (w : UInt32) : Sha1Words :=
  let b := s.h1
  let c := s.h2
  let d := s.h3
  let (f, k) :=
    if i < 20 then ((b &&& c) ||| (~~~b &&& d), 0x5a827999)
    else if i < 40 then (b ^^^ c ^^^ d, 0x6ed9eba1)
    else if i < 60 then ((b &&& c) ||| (b &&& d) ||| (c &&& d), 0x8f1bbcdc)
    else (b ^^^ c ^^^ d, 0xca62c1d6)
  { h0 := rol32 s.h0 5 + f + s.h4 + k + w, h1 := s.h0, h2 := rol32 b 30, h3 := c, h4 := d }

/-- `sha1_transform` -/
def sha1Transform (h : Sha1Words) (block : List UInt8) : Sha1Words :=
  let w := (sha1Schedule 64 ((List.range 16).map (blockWord block)).reverse).reverse
  let s := w.zipIdx.foldl (fun s p => sha1Round s p.2 p.1) h
  { h0 := h.h0 + s.h0, h1 := h.h1 + s.h1, h2 := h.h2 + s.h2, h3 := h.h3 + s.h3, h4 := h.h4 + s.h4 }

/-- `sha1_init` -/
def sha1Init : Sha1Ctx where
  h := { h0 := 0x67452301, h1 := 0xefcdab89, h2 := 0x98badcfe, h3 := 0x10325476, h4 := 0xc3d2e1f0 }
  bytes := 0
  block := []

/-- One byte of `sha1_update`. -/
def sha1Push (c : Sha1Ctx) (b : UInt8) : Sha1Ctx :=
  let block := c.block ++ [b]
  if block.length = 64 then
    { h := sha1Transform c.h block, bytes := c.bytes + 1, block := [] }
  else { c with bytes := c.bytes + 1, block := block }

/-- `sha1_update` -/
def sha1Update (c : Sha1Ctx) (p : List UInt8) : Sha1Ctx := p.foldl sha1Push c

/-- The zeros up to byte 56 of a block; at most a block of them is needed. -/
def sha1Pad : Nat → Sha1Ctx → Sha1Ctx
  | 0, c     => c
  | n + 1, c => if c.block.length = 56 then c else sha1Pad n (sha1Push c 0)

/-- The four bytes of a word, the highest first. -/
def wordBytes (w : UInt32) : List UInt8 :=
  [(w >>> 24).toUInt8, (w >>> 16).toUInt8, (w >>> 8).toUInt8, w.toUInt8]

/-- `sha1_final` -/
def sha1Final (c : Sha1Ctx) : List UInt8 :=
  let bits := c.bytes * 8
  let c := sha1Pad 64 (sha1Update c [0x80])
  let c := sha1Update c ((List.range 8).map fun i => (bits >>> (8 * (7 - i)).toUInt64).toUInt8)
  wordBytes c.h.h0 ++ wordBytes c.h.h1 ++ wordBytes c.h.h2 ++ wordBytes c.h.h3 ++ wordBytes c.h.h4

/-- The digits of `hex20`: `"0123456789abcdef"`. -/
def hexDigit (n : UInt8) : UInt8 := if n < 10 then 0x30 + n else 0x61 + (n - 10)

/-- `hex20` -/
def hex20 (bytes : List UInt8) : List UInt8 :=
  bytes.flatMap fun b : UInt8 => [hexDigit (b >>> 4), hexDigit (b &&& 15)]

/-- `ds4_kvstore_sha1_bytes_hex` -/
def sha1BytesHex (text : List UInt8) : List UInt8 := hex20 (sha1Final (sha1Update sha1Init text))

-- the digest of "abc": a9993e36 4706816a ba3e2571 7850c26c 9cd0d89d
example : sha1Final (sha1Update sha1Init [0x61, 0x62, 0x63]) =
    [0xa9, 0x99, 0x3e, 0x36, 0x47, 0x06, 0x81, 0x6a, 0xba, 0x3e, 0x25, 0x71, 0x78, 0x50, 0xc2, 0x6c,
      0x9c, 0xd0, 0xd8, 0x9d] := by decide +kernel

/-! ### File names -/

/-- A name in the cache directory. -/
abbrev Name := List UInt8

/-- `".kv"` -/
def kvSuffix : List UInt8 := [0x2e, 0x6b, 0x76]

/-- `isxdigit` -/
def isXDigit (c : UInt8) : Bool :=
  (0x30 ≤ c && c ≤ 0x39) || (0x41 ≤ c && c ≤ 0x46) || (0x61 ≤ c && c ≤ 0x66)

/-- `tolower` -/
def toLower (c : UInt8) : UInt8 := if 0x41 ≤ c && c ≤ 0x5a then c + 0x20 else c

/-- `ds4_kvstore_sha_hex_name`: the digits of the name of a cache file. -/
def shaHexName (name : Name) : Option (List UInt8) :=
  if name.length ≠ 43 ∨ name.drop 40 ≠ kvSuffix then none
  else if (name.take 40).all isXDigit then some ((name.take 40).map toLower)
  else none

/-- `ds4_kvstore_path_for_sha`, without the directory. -/
def pathForSha (sha : List UInt8) : Name := sha.take 40 ++ kvSuffix

/-- A digit of `hex20`. -/
def IsLowerHex (c : UInt8) : Prop := (0x30 ≤ c ∧ c ≤ 0x39) ∨ (0x61 ≤ c ∧ c ≤ 0x66)

instance (c : UInt8) : Decidable (IsLowerHex c) := inferInstanceAs (Decidable (_ ∨ _))

theorem isLowerHex_hexDigit {n : UInt8} : n < 16 → IsLowerHex (hexDigit n) :=
  @forall_uint8 (fun n => n < 16 → IsLowerHex (hexDigit n)) (by decide +kernel) n

theorem IsLowerHex.isXDigit {c : UInt8} : IsLowerHex c → isXDigit c = true :=
  @forall_uint8 (fun c => IsLowerHex c → KvStore.isXDigit c = true) (by decide +kernel) c

theorem IsLowerHex.toLower {c : UInt8} : IsLowerHex c → toLower c = c :=
  @forall_uint8 (fun c => IsLowerHex c → KvStore.toLower c = c) (by decide +kernel) c

theorem sha1Final_length (c : Sha1Ctx) : (sha1Final c).length = 20 := rfl

@[simp] theorem sha1BytesHex_length (text : List UInt8) : (sha1BytesHex text).length = 40 := rfl

theorem isLowerHex_of_mem_sha1 {text : List UInt8} {c : UInt8} (h : c ∈ sha1BytesHex text) :
    IsLowerHex c := by
  obtain ⟨b, -, hc⟩ := List.mem_flatMap.mp h
  have hhigh : ∀ b : UInt8, b >>> 4 < 16 := forall_uint8 (by decide +kernel)
  have hlow : ∀ b : UInt8, b &&& 15 < 16 := forall_uint8 (by decide +kernel)
  simp only [List.mem_cons, List.not_mem_nil, or_false] at hc
  obtain rfl | rfl := hc
  · exact isLowerHex_hexDigit (hhigh b)
  · exact isLowerHex_hexDigit (hlow b)

/-- **The name of a text** is read back as its digest. -/
theorem shaHexName_pathForSha (text : List UInt8) :
    shaHexName (pathForSha (sha1BytesHex text)) = some (sha1BytesHex text) := by
  have hlen := sha1BytesHex_length text
  have htake : (sha1BytesHex text).take 40 = sha1BytesHex text := List.take_of_length_le (Nat.le_of_eq hlen)
  have hfirst : (sha1BytesHex text ++ kvSuffix).take 40 = sha1BytesHex text := by
    rw [List.take_append_of_le_length (Nat.le_of_eq hlen.symm), htake]
  have hlast : (sha1BytesHex text ++ kvSuffix).drop 40 = kvSuffix := List.drop_left' hlen
  have hall : (sha1BytesHex text).all isXDigit = true :=
    List.all_eq_true.mpr fun c hc => (isLowerHex_of_mem_sha1 hc).isXDigit
  have hmap : (sha1BytesHex text).map toLower = sha1BytesHex text := by
    conv_rhs => rw [← List.map_id (sha1BytesHex text)]
    exact List.map_congr_left fun c hc => (isLowerHex_of_mem_sha1 hc).toLower
  unfold shaHexName pathForSha
  rw [htake, hfirst, hlast, List.length_append, hlen, if_neg (by decide), if_pos hall, hmap]

-- digests are compared, not computed, in what follows
attribute [irreducible] sha1BytesHex

end DS4.KvStore
