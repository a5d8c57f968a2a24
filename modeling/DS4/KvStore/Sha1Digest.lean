import DS4.KvStore.Sha1
import DS4.Lib.Sha1

namespace DS4.KvStore

/-!
# The KV cache — the digest is SHA-1

The context of the hash as it stands in memory: `sha1_update` copies as many bytes as the block has
room for, and `sha1_final` pads in a loop.

* `Sha1Mem`, `sha1MemUpdate`, `sha1MemFinal` — the code.
* `Sha1Mem.Holds` — the text that a context has taken; `Sha1Mem.Holds.update`.
* `sha1_compress` — the transformation of a block is the one of the standard.
* `sha1_digest` — the digest of a text, in whatever pieces it comes.
* `sha1BytesHex_eq` — the name of a cache file is the digest in hex digits.
-/

open DS4.Lib

/-! ### The context in memory -/

/-- `sha1_ctx` between calls: the block has room. -/
structure Sha1Mem where
  h : Sha1Words
  bytes : UInt64
  block : List UInt8
  used : Nat
  block_length : block.length = 64
  used_lt : used < 64

/-- The memory of the block with bytes copied behind the used ones: `memcpy`. -/
def Sha1Mem.copy (c : Sha1Mem) (p : List UInt8) : List UInt8 := splice c.block c.used p

theorem Sha1Mem.copy_length {c : Sha1Mem} {p : List UInt8} (h : c.used + p.length ≤ 64) :
    (c.copy p).length = 64 := by
  have hlen := c.block_length
  rw [Sha1Mem.copy, splice_length (by omega), hlen]

/-- One turn of the loop of `sha1_update`: the bytes that have room are copied, and a full block is
    worked off. -/
def Sha1Mem.fill (c : Sha1Mem) (p : List UInt8) (h : c.used + p.length ≤ 64) : Sha1Mem :=
  if hfull : c.used + p.length = 64 then
    { c with h := sha1Transform c.h (c.copy p), block := c.copy p, used := 0,
             block_length := Sha1Mem.copy_length h, used_lt := by omega }
  else
    { c with block := c.copy p, used := c.used + p.length, block_length := Sha1Mem.copy_length h,
             used_lt := by omega }

/-- The loop of `sha1_update`. -/
def sha1MemLoop (c : Sha1Mem) (p : List UInt8) : Sha1Mem :=
  if p = [] then c
  else sha1MemLoop (c.fill (p.take (64 - c.used)) (by rw [List.length_take]; have := c.used_lt; omega))
    (p.drop (64 - c.used))
  termination_by p.length
  decreasing_by
    rename_i hne
    have hpos := List.length_pos_iff.mpr hne
    have hroom := c.used_lt
    rw [List.length_drop]
    omega

/-- `sha1_update` -/
def sha1MemUpdate (c : Sha1Mem) (p : List UInt8) : Sha1Mem :=
  sha1MemLoop { c with bytes := c.bytes + p.length.toUInt64 } p

/-- `sha1_init`; the block is not initialised. -/
def sha1MemInit (block : List UInt8) (h : block.length = 64) : Sha1Mem where
  h := sha1Init.h
  bytes := 0
  block := block
  used := 0
  block_length := h
  used_lt := by decide

/-- The loop of `sha1_final`; it has not ended when the fuel is used up. -/
def sha1MemPad : Nat → Sha1Mem → Option Sha1Mem
  | 0, _        => none
  | fuel + 1, c => if c.used ≠ 56 then sha1MemPad fuel (sha1MemUpdate c [0]) else some c

/-- `sha1_final` -/
def sha1MemFinal (fuel : Nat) (c : Sha1Mem) : Option (List UInt8) :=
  let bits := c.bytes * 8
  match sha1MemPad fuel (sha1MemUpdate c [0x80]) with
  | none   => none
  | some c =>
    let c := sha1MemUpdate c ((List.range 8).map fun i => (bits >>> (8 * (7 - i)).toUInt64).toUInt8)
    some (wordBytes c.h.h0 ++ wordBytes c.h.h1 ++ wordBytes c.h.h2 ++ wordBytes c.h.h3 ++ wordBytes c.h.h4)

/-! ### Blocks -/

/-- The words under the names of the standard. -/
def Sha1Words.toState (w : Sha1Words) : Sha1.State where
  a := w.h0
  b := w.h1
  c := w.h2
  d := w.h3
  e := w.h4

theorem or_eq_ch (x y z : UInt32) : (x &&& y) ||| (~~~x &&& z) = Sha1.ch x y z := by
  apply UInt32.toBitVec_inj.mp
  show (x.toBitVec &&& y.toBitVec) ||| (~~~x.toBitVec &&& z.toBitVec) =
    (x.toBitVec &&& y.toBitVec) ^^^ (~~~x.toBitVec &&& z.toBitVec)
  ext i hi
  simp only [BitVec.getElem_or, BitVec.getElem_and, BitVec.getElem_not, BitVec.getElem_xor]
  cases x.toBitVec[i] <;> simp

theorem or_eq_maj (x y z : UInt32) : (x &&& y) ||| (x &&& z) ||| (y &&& z) = Sha1.maj x y z := by
  apply UInt32.toBitVec_inj.mp
  show (x.toBitVec &&& y.toBitVec) ||| (x.toBitVec &&& z.toBitVec) ||| (y.toBitVec &&& z.toBitVec) =
    (x.toBitVec &&& y.toBitVec) ^^^ (x.toBitVec &&& z.toBitVec) ^^^ (y.toBitVec &&& z.toBitVec)
  ext i hi
  simp only [BitVec.getElem_or, BitVec.getElem_and, BitVec.getElem_xor]
  cases x.toBitVec[i] <;> cases y.toBitVec[i] <;> simp

theorem sha1Round_eq (s : Sha1Words) (t : Nat) (w : UInt32) :
    (sha1Round s t w).toState = Sha1.round t w s.toState := by
  unfold sha1Round Sha1.round Sha1.f Sha1.K
  dsimp only
  split_ifs
  · rw [or_eq_ch]
    rfl
  · rfl
  · rw [or_eq_maj]
    rfl
  · rfl

/-- Four bytes in a word do not overlap. -/
theorem or_bytes {a b c d : Nat} (ha : a < 256) (hb : b < 256) (hc : c < 256) (hd : d < 256) :
    a * 16777216 % 4294967296 ||| b * 65536 % 4294967296 ||| c * 256 % 4294967296 ||| d =
      ((a * 256 + b) * 256 + c) * 256 + d := by
  have h1 := Nat.two_pow_add_eq_or_of_lt (i := 24) (b := b * 65536) (by omega) a
  have h2 := Nat.two_pow_add_eq_or_of_lt (i := 16) (b := c * 256) (by omega) (a * 256 + b)
  have h3 := Nat.two_pow_add_eq_or_of_lt (i := 8) (b := d) (by omega) ((a * 256 + b) * 256 + c)
  have e1 : a * 16777216 % 4294967296 = 2 ^ 24 * a := by omega
  have e2 : 2 ^ 24 * a + b * 65536 = 2 ^ 16 * (a * 256 + b) := by omega
  have e3 : 2 ^ 16 * (a * 256 + b) + c * 256 = 2 ^ 8 * ((a * 256 + b) * 256 + c) := by omega
  rw [e1, Nat.mod_eq_of_lt (by omega : b * 65536 < 4294967296),
    Nat.mod_eq_of_lt (by omega : c * 256 < 4294967296), ← h1, e2, ← h2, e3, ← h3]
  omega

theorem blockWord_eq (block : List UInt8) (i : Nat) : blockWord block i = Sha1.blockWord block i := by
  have hor : ∀ a b c d : UInt8, ((a.toUInt32 <<< 24) ||| (b.toUInt32 <<< 16) ||| (c.toUInt32 <<< 8) |||
      d.toUInt32) = UInt32.ofNat (256 * (256 * (256 * (256 * 0 + a.toNat) + b.toNat) + c.toNat) + d.toNat) := by
    intro a b c d
    have h := or_bytes a.toNat_lt b.toNat_lt c.toNat_lt d.toNat_lt
    have ha := a.toNat_lt
    have hb := b.toNat_lt
    have hc := c.toNat_lt
    have hd := d.toNat_lt
    apply UInt32.toNat_inj.mp
    rw [UInt32.toNat_ofNat', Nat.mod_eq_of_lt (by omega)]
    simp only [UInt32.toNat_or, UInt32.toNat_shiftLeft, UInt8.toNat_toUInt32, UInt32.reduceToNat, Nat.shiftLeft_eq]
    exact h.trans (by omega)
  exact hor _ _ _ _

theorem zipIdx_foldl {σ : Type*} (g : σ → UInt32 × Nat → σ) (W : Nat → UInt32) (n : Nat) (s : σ) :
    ((List.range n).map W).zipIdx.foldl g s = (List.range n).foldl (fun s t => g s (W t, t)) s := by
  induction n with
  | zero => rfl
  | succ n ih =>
    rw [List.range_succ, List.map_append, List.zipIdx_append, List.foldl_append, List.foldl_append, ih]
    simp

theorem sha1Schedule_eq (W : Nat → UInt32)
    (hW : ∀ t, 16 ≤ t → W t = rol32 (W (t - 3) ^^^ W (t - 8) ^^^ W (t - 14) ^^^ W (t - 16)) 1) (n k : Nat) :
    sha1Schedule n ((List.range (16 + k)).map W).reverse = ((List.range (16 + k + n)).map W).reverse := by
  induction n generalizing k with
  | zero => rfl
  | succ n ih =>
    have hget : ∀ j, j < 16 → ((List.range (16 + k)).map W).reverse.getD j 0 = W (16 + k - (j + 1)) := by
      intro j hj
      rw [List.getD_eq_getElem?_getD, List.getElem?_reverse (by simp; omega)]
      rw [List.length_map, List.length_range, List.getElem?_map, List.getElem?_range (by omega)]
      show W (16 + k - 1 - j) = _
      congr 1
      omega
    have hnext : rol32 (((List.range (16 + k)).map W).reverse.getD 2 0 ^^^
        ((List.range (16 + k)).map W).reverse.getD 7 0 ^^^ ((List.range (16 + k)).map W).reverse.getD 13 0 ^^^
        ((List.range (16 + k)).map W).reverse.getD 15 0) 1 = W (16 + k) := by
      rw [hget 2 (by decide), hget 7 (by decide), hget 13 (by decide), hget 15 (by decide), hW (16 + k) (by omega)]
    have hcons : W (16 + k) :: ((List.range (16 + k)).map W).reverse =
        ((List.range (16 + (k + 1))).map W).reverse := by
      rw [← Nat.add_assoc, List.range_succ, List.map_append, List.reverse_append]
      rfl
    rw [sha1Schedule, hnext, hcons, ih (k + 1)]
    congr 3
    omega


/-- **The transformation of a block** is the one of the standard. -/
theorem sha1_compress (h : Sha1Words) (block : List UInt8) :
    (sha1Transform h block).toState = Sha1.compress h.toState block := by
  have hW : ∀ t, 16 ≤ t → Sha1.schedule block t =
      rol32 (Sha1.schedule block (t - 3) ^^^ Sha1.schedule block (t - 8) ^^^ Sha1.schedule block (t - 14) ^^^
        Sha1.schedule block (t - 16)) 1 := by
    intro t ht
    rw [Sha1.schedule, if_neg (by omega)]
    rfl
  have hfirst : (List.range 16).map (blockWord block) = (List.range 16).map (Sha1.schedule block) := by
    refine List.map_congr_left fun t ht => ?_
    rw [Sha1.schedule, if_pos (List.mem_range.mp ht), blockWord_eq]
  have hwords : (sha1Schedule 64 ((List.range 16).map (blockWord block)).reverse).reverse =
      (List.range 80).map (Sha1.schedule block) := by
    rw [hfirst, sha1Schedule_eq _ hW 64 0, List.reverse_reverse]
  have hrounds : ((List.range 80).foldl (fun s t => sha1Round s t (Sha1.schedule block t)) h).toState =
      (List.range 80).foldl (fun r t => Sha1.round t (Sha1.schedule block t) r) h.toState := by
    rw [List.foldl_hom Sha1Words.toState]
    intro s t
    exact (sha1Round_eq s t _).symm
  unfold sha1Transform Sha1.compress
  dsimp only
  rw [hwords, zipIdx_foldl, ← hrounds]
  rfl

theorem wordBytes_eq (w : UInt32) : wordBytes w = Sha1.bigEndian 4 w.toNat := by
  have hbyte : ∀ k : UInt32, k.toNat < 32 → (w >>> k).toUInt8 = UInt8.ofNat (w.toNat / 2 ^ k.toNat) := by
    intro k hk
    apply UInt8.toNat_inj.mp
    rw [UInt32.toNat_toUInt8, UInt32.toNat_shiftRight, UInt8.toNat_ofNat', Nat.mod_eq_of_lt hk,
      Nat.shiftRight_eq_div_pow]
  have h0 : w.toUInt8 = UInt8.ofNat (w.toNat / 1) := by
    rw [Nat.div_one]
    rfl
  unfold wordBytes
  rw [hbyte 24 (by decide), hbyte 16 (by decide), hbyte 8 (by decide), h0]
  rfl

theorem lengthBytes_eq {bits : UInt64} {n : Nat} (h : bits.toNat = n) :
    ((List.range 8).map fun i => (bits >>> (8 * (7 - i)).toUInt64).toUInt8) = Sha1.bigEndian 8 n := by
  refine List.map_congr_left fun i hi => ?_
  have hi := List.mem_range.mp hi
  have hk : (8 * (7 - i)).toUInt64.toNat = 8 * (7 - i) := Nat.mod_eq_of_lt (by omega)
  apply UInt8.toNat_inj.mp
  rw [UInt64.toNat_toUInt8, UInt64.toNat_shiftRight, UInt8.toNat_ofNat', hk, Nat.mod_eq_of_lt (by omega : 8 * (7 - i) < 64),
    Nat.shiftRight_eq_div_pow, Nat.pow_mul, h]

/-! ### What a context has taken -/

/-- The context has taken the text: the full blocks are worked off, and the rest is in the block. -/
structure Sha1Mem.Holds (c : Sha1Mem) (text : List UInt8) : Prop where
  state : c.h = (workOff 64 sha1Transform sha1Init.h text).1
  rest : c.block.take c.used = (workOff 64 sha1Transform sha1Init.h text).2
  bytes : c.bytes = text.length.toUInt64

variable {c : Sha1Mem} {text p : List UInt8}

theorem Sha1Mem.take_copy (h : c.used + p.length ≤ 64) :
    (c.copy p).take (c.used + p.length) = c.block.take c.used ++ p := by
  have hlen := c.block_length
  have htake : (c.block.take c.used ++ p).length = c.used + p.length := by
    rw [List.length_append, List.length_take]
    omega
  rw [Sha1Mem.copy, splice, List.take_left' htake]

/-- A turn of the loop works off what the block holds with the bytes that are copied. -/
theorem Sha1Mem.fill_eq (h : c.used + p.length ≤ 64) :
    ((c.fill p h).h, (c.fill p h).block.take (c.fill p h).used) =
      workOff 64 sha1Transform c.h (c.block.take c.used ++ p) := by
  have hlen := c.block_length
  have hall : (c.block.take c.used ++ p).length = c.used + p.length := by
    rw [List.length_append, List.length_take]
    omega
  unfold Sha1Mem.fill
  by_cases hfull : c.used + p.length = 64
  · have hcopy : c.copy p = c.block.take c.used ++ p := by
      rw [← Sha1Mem.take_copy h, hfull, List.take_of_length_le (Nat.le_of_eq (Sha1Mem.copy_length h))]
    rw [dif_pos hfull, workOff_of_le (by omega), workOff_of_lt (by rw [List.length_drop]; omega),
      List.take_of_length_le (Nat.le_of_eq (hall.trans hfull)),
      List.drop_of_length_le (Nat.le_of_eq (hall.trans hfull)), ← hcopy]
    rfl
  · rw [dif_neg hfull, workOff_of_lt (by omega)]
    show (c.h, (c.copy p).take (c.used + p.length)) = _
    rw [Sha1Mem.take_copy h]

theorem Sha1Mem.fill_bytes (h : c.used + p.length ≤ 64) : (c.fill p h).bytes = c.bytes := by
  unfold Sha1Mem.fill
  split <;> rfl

/-- The loop works off what the block holds with all the bytes. -/
theorem sha1MemLoop_eq (c : Sha1Mem) (p : List UInt8) :
    ((sha1MemLoop c p).h, (sha1MemLoop c p).block.take (sha1MemLoop c p).used) =
        workOff 64 sha1Transform c.h (c.block.take c.used ++ p) ∧
      (sha1MemLoop c p).bytes = c.bytes := by
  induction c, p using sha1MemLoop.induct with
  | case1 c =>
    have hlen := c.block_length
    have hroom := c.used_lt
    rw [sha1MemLoop, if_pos rfl, List.append_nil,
      workOff_of_lt (by rw [List.length_take]; omega)]
    exact ⟨rfl, rfl⟩
  | case2 c p hne ih =>
    have hle : c.used + (p.take (64 - c.used)).length ≤ 64 := by
      have hroom := c.used_lt
      rw [List.length_take]
      omega
    have hfill := Sha1Mem.fill_eq hle
    have hsplit := workOff_append (n := 64) (f := sha1Transform) c.h
      (c.block.take c.used ++ p.take (64 - c.used)) (p.drop (64 - c.used))
    rw [List.append_assoc, List.take_append_drop, ← hfill] at hsplit
    rw [sha1MemLoop, if_neg hne, hsplit]
    exact ⟨ih.1, ih.2.trans (Sha1Mem.fill_bytes hle)⟩

/-- **An update** takes the bytes behind the text. -/
theorem Sha1Mem.Holds.update (h : c.Holds text) (p : List UInt8) :
    (sha1MemUpdate c p).Holds (text ++ p) := by
  have hloop := sha1MemLoop_eq { c with bytes := c.bytes + p.length.toUInt64 } p
  have hpair : ((sha1MemUpdate c p).h, (sha1MemUpdate c p).block.take (sha1MemUpdate c p).used) =
      workOff 64 sha1Transform sha1Init.h (text ++ p) := by
    rw [workOff_append, ← h.state, ← h.rest]
    exact hloop.1
  refine ⟨congrArg Prod.fst hpair, congrArg Prod.snd hpair, ?_⟩
  show (sha1MemLoop _ p).bytes = _
  rw [hloop.2, List.length_append]
  show c.bytes + p.length.toUInt64 = UInt64.ofNat (text.length + p.length)
  rw [UInt64.ofNat_add, h.bytes]

theorem Sha1Mem.holds_init (block : List UInt8) (h : block.length = 64) :
    (sha1MemInit block h).Holds [] := by
  refine ⟨?_, ?_, rfl⟩
  · rw [workOff_of_lt (by decide)]
    rfl
  · rw [workOff_of_lt (by decide)]
    rfl

/-- **All updates.** -/
theorem Sha1Mem.Holds.foldl (h : c.Holds text) (pieces : List (List UInt8)) :
    (pieces.foldl sha1MemUpdate c).Holds (text ++ pieces.flatten) := by
  induction pieces generalizing c text with
  | nil =>
    rw [List.flatten_nil, List.append_nil]
    exact h
  | cons p pieces ih =>
    rw [List.foldl_cons, List.flatten_cons, ← List.append_assoc]
    exact ih (h.update p)

/-- What is used of the block. -/
theorem Sha1Mem.Holds.used_eq (h : c.Holds text) : c.used = text.length % 64 := by
  have hlen := c.block_length
  have hroom := c.used_lt
  have hrest := congrArg List.length h.rest
  rw [List.length_take, workOff_rest_length] at hrest
  omega

/-! ### The digest -/

/-- The loop of the padding ends after as many zeros as reach byte 56. -/
theorem sha1MemPad_spec (k : Nat) {fuel : Nat} {c : Sha1Mem} {text : List UInt8} (h : c.Holds text)
    (hk : (120 - text.length % 64) % 64 = k) (hfuel : k < fuel) :
    ∃ c', sha1MemPad fuel c = some c' ∧ c'.Holds (text ++ List.replicate k 0) := by
  have hused := h.used_eq
  induction k generalizing fuel c text with
  | zero =>
    obtain ⟨fuel, rfl⟩ : ∃ n, fuel = n + 1 := ⟨fuel - 1, by omega⟩
    refine ⟨c, ?_, ?_⟩
    · rw [sha1MemPad, if_neg fun hne => hne (by omega)]
    · rw [List.replicate_zero, List.append_nil]
      exact h
  | succ k ih =>
    obtain ⟨fuel, rfl⟩ : ∃ n, fuel = n + 1 := ⟨fuel - 1, by omega⟩
    have hlen : (text ++ [0]).length = text.length + 1 := List.length_append
    obtain ⟨c', hc', hh⟩ := ih (h.update [0]) (by rw [hlen]; omega) (by omega : k < fuel) (h.update [0]).used_eq
    refine ⟨c', ?_, ?_⟩
    · rw [sha1MemPad, if_pos (by omega)]
      exact hc'
    · rw [List.replicate_succ]
      rw [List.append_assoc] at hh
      exact hh

/-- **The digest** of what a context has taken. -/
theorem Sha1Mem.Holds.final {c : Sha1Mem} {text : List UInt8} (h : c.Holds text) (hlen : text.length < 2 ^ 61)
    {fuel : Nat} (hfuel : 64 ≤ fuel) : sha1MemFinal fuel c = some (Sha1.digest text) := by
  have hbits : (c.bytes * 8).toNat = 8 * text.length := by
    rw [UInt64.toNat_mul, h.bytes]
    show text.length % 2 ^ 64 * 8 % 2 ^ 64 = _
    omega
  have hone : (text ++ [0x80]).length = text.length + 1 := List.length_append
  have hzeros : (120 - (text ++ [0x80]).length % 64) % 64 = (119 - text.length % 64) % 64 := by
    rw [hone]
    omega
  obtain ⟨c', hc', hh⟩ := sha1MemPad_spec _ (h.update [0x80]) hzeros (by omega : _ < fuel)
  have hlast := hh.update (Sha1.bigEndian 8 (8 * text.length))
  have hpadded : text ++ [0x80] ++ List.replicate ((119 - text.length % 64) % 64) 0 ++
      Sha1.bigEndian 8 (8 * text.length) = text ++ Sha1.padding text.length := by
    rw [Sha1.padding, List.append_assoc, List.append_assoc]
    rfl
  rw [hpadded] at hlast
  have hstate : (sha1MemUpdate c' (Sha1.bigEndian 8 (8 * text.length))).h.toState =
      (workOff 64 Sha1.compress Sha1.initial (text ++ Sha1.padding text.length)).1 := by
    rw [hlast.state]
    exact (congrArg Prod.fst (workOff_hom Sha1Words.toState sha1_compress sha1Init.h _)).symm
  unfold sha1MemFinal Sha1.digest
  dsimp only
  rw [hc']
  dsimp only
  rw [lengthBytes_eq hbits, ← hstate]
  simp only [wordBytes_eq]
  rfl

/-! ### One byte at a time -/

/-- The context as `sha1Update` has it. -/
def Sha1Mem.toCtx (c : Sha1Mem) : Sha1Ctx where
  h := c.h
  bytes := c.bytes
  block := c.block.take c.used

theorem sha1Update_eq {c : Sha1Ctx} (h : c.block.length < 64) (p : List UInt8) :
    sha1Update c p =
      { h := (workOff 64 sha1Transform c.h (c.block ++ p)).1
        bytes := c.bytes + p.length.toUInt64
        block := (workOff 64 sha1Transform c.h (c.block ++ p)).2 } := by
  induction p generalizing c with
  | nil =>
    rw [List.append_nil, workOff_of_lt h]
    show c = { c with bytes := c.bytes + 0 }
    rw [UInt64.add_zero]
  | cons b p ih =>
    have hlen : (c.block ++ [b]).length = c.block.length + 1 := List.length_append
    have hbytes : c.bytes + (b :: p).length.toUInt64 = c.bytes + 1 + p.length.toUInt64 := by
      show c.bytes + UInt64.ofNat (p.length + 1) = _
      rw [UInt64.ofNat_add, UInt64.add_comm (UInt64.ofNat p.length), ← UInt64.add_assoc]
      rfl
    have happ : c.block ++ b :: p = c.block ++ [b] ++ p := by
      rw [List.append_assoc]
      rfl
    rw [hbytes, happ]
    show sha1Update (sha1Push c b) p = _
    unfold sha1Push
    dsimp only
    by_cases hfull : (c.block ++ [b]).length = 64
    · rw [if_pos hfull, ih (by decide : ([] : List UInt8).length < 64), workOff_block hfull]
      rfl
    · rw [if_neg hfull, ih (show (c.block ++ [b]).length < 64 by omega)]

theorem Sha1Mem.block_lt (c : Sha1Mem) : c.toCtx.block.length < 64 := by
  have hroom := c.used_lt
  show (c.block.take c.used).length < 64
  rw [List.length_take]
  omega

/-- An update is the same in either context. -/
theorem Sha1Mem.toCtx_update (c : Sha1Mem) (p : List UInt8) :
    (sha1MemUpdate c p).toCtx = sha1Update c.toCtx p := by
  obtain ⟨hpair, hbytes⟩ := sha1MemLoop_eq { c with bytes := c.bytes + p.length.toUInt64 } p
  have hh := congrArg Prod.fst hpair
  have hrest := congrArg Prod.snd hpair
  rw [sha1Update_eq c.block_lt]
  unfold Sha1Mem.toCtx sha1MemUpdate
  dsimp only at hh hrest hbytes ⊢
  rw [hh, hrest, hbytes]

theorem Sha1Mem.toCtx_pad {fuel : Nat} {c c' : Sha1Mem} (h : sha1MemPad fuel c = some c') :
    sha1Pad fuel c.toCtx = c'.toCtx := by
  induction fuel generalizing c with
  | zero => cases h
  | succ fuel ih =>
    have hlen : c.toCtx.block.length = c.used := by
      have hroom := c.used_lt
      have hblock := c.block_length
      show (c.block.take c.used).length = c.used
      rw [List.length_take]
      omega
    rw [sha1MemPad] at h
    rw [sha1Pad, hlen]
    by_cases h56 : c.used = 56
    · rw [if_neg fun hne => hne h56] at h
      rw [if_pos h56, Option.some.inj h]
    · rw [if_pos h56] at h
      rw [if_neg h56, ← ih h, c.toCtx_update]
      rfl

theorem Sha1Mem.toCtx_final {c : Sha1Mem} {out : List UInt8} (h : sha1MemFinal 64 c = some out) :
    sha1Final c.toCtx = out := by
  unfold sha1MemFinal at h
  dsimp only at h
  cases hpad : sha1MemPad 64 (sha1MemUpdate c [0x80]) with
  | none =>
    rw [hpad] at h
    cases h
  | some c' =>
    rw [hpad] at h
    obtain rfl := Option.some.inj h
    have hctx := Sha1Mem.toCtx_pad hpad
    rw [c.toCtx_update] at hctx
    unfold sha1Final
    dsimp only
    rw [hctx]
    show wordBytes (sha1Update c'.toCtx _).h.h0 ++ _ = _
    rw [← c'.toCtx_update]
    rfl

/-- **The name of a text** is its SHA-1, in hex digits. -/
theorem sha1BytesHex_eq {text : List UInt8} (hlen : text.length < 2 ^ 61) :
    sha1BytesHex text = hex20 (Sha1.digest text) := by
  have hinit : (sha1MemInit (List.replicate 64 0) List.length_replicate).toCtx = sha1Init := rfl
  have hfinal := ((Sha1Mem.holds_init (List.replicate 64 0) List.length_replicate).update text).final hlen
    (Nat.le_refl 64)
  rw [sha1BytesHex, ← hinit, ← Sha1Mem.toCtx_update, Sha1Mem.toCtx_final hfinal]
  rfl

/-! ### Any pieces -/

/-- **SHA-1.**  In whatever pieces a text comes, its digest is that of the standard, and the loop of the
    padding has ended by its sixty-fourth turn. -/
theorem sha1_digest (block : List UInt8) (hblock : block.length = 64) (pieces : List (List UInt8))
    (hlen : pieces.flatten.length < 2 ^ 61) (fuel : Nat) (hfuel : 64 ≤ fuel) :
    sha1MemFinal fuel (pieces.foldl sha1MemUpdate (sha1MemInit block hblock)) =
      some (Sha1.digest pieces.flatten) :=
  ((Sha1Mem.holds_init block hblock).foldl pieces).final hlen hfuel


/-- "a" and "bc". -/
theorem sha1_digest_sample :
    [[0x61], [0x62, 0x63]].flatten.length < 2 ^ 61 ∧
      sha1MemFinal 64 ([[0x61], [0x62, 0x63]].foldl sha1MemUpdate
        (sha1MemInit (List.replicate 64 0) List.length_replicate)) =
        some (Sha1.digest [0x61, 0x62, 0x63]) :=
  ⟨by decide, sha1_digest _ List.length_replicate [[0x61], [0x62, 0x63]] (by decide) 64 (Nat.le_refl 64)⟩

end DS4.KvStore
