import DS4.Lib.Blocks

namespace DS4.Lib.Sha1

/-!
# SHA-1, as FIPS 180 states it

The message is padded to whole blocks of 64 bytes; each block is worked into five words of 32 bits.

* `ch`, `parity`, `maj`, `f`, `K` — the functions and constants of the 80 rounds.
* `schedule`, `compress` — the words of a block, and what a block does to the state.
* `padding` — 0x80, as few zeros as reach 56 bytes modulo 64, and the length in bits.
* `digest` — the digest of a message.
-/

abbrev Word := UInt32

/-- The number as `n` bytes, the highest first. -/
def bigEndian (n v : Nat) : List UInt8 := (List.range n).map fun i => UInt8.ofNat (v / 256 ^ (n - 1 - i))

/-- `ROTL n x` -/
def rotl (n x : Word) : Word := (x <<< n) ||| (x >>> (32 - n))

/-! ### Rounds -/

def ch (x y z : Word) : Word := (x &&& y) ^^^ (~~~x &&& z)

def parity (x y z : Word) : Word := x ^^^ y ^^^ z

def maj (x y z : Word) : Word := (x &&& y) ^^^ (x &&& z) ^^^ (y &&& z)

/-- The function of round `t`. -/
def f (t : Nat) : Word → Word → Word → Word :=
  if t < 20 then ch else if t < 40 then parity else if t < 60 then maj else parity

/-- The constant of round `t`. -/
def K (t : Nat) : Word :=
  if t < 20 then 0x5a827999 else if t < 40 then 0x6ed9eba1 else if t < 60 then 0x8f1bbcdc else 0xca62c1d6

/-- The five words of the state. -/
structure State where
  a : Word
  b : Word
  c : Word
  d : Word
  e : Word

/-- The initial hash value. -/
def initial : State where
  a := 0x67452301
  b := 0xefcdab89
  c := 0x98badcfe
  d := 0x10325476
  e := 0xc3d2e1f0

/-- Round `t` with the word `w` of the schedule. -/
def round (t : Nat) (w : Word) (s : State) : State where
  a := rotl 5 s.a + f t s.b s.c s.d + s.e + K t + w
  b := s.a
  c := rotl 30 s.b
  d := s.c
  e := s.d

/-! ### Blocks -/

/-- Word `i` of a block, which is big-endian. -/
def blockWord (block : List UInt8) (i : Nat) : Word :=
  UInt32.ofNat ((List.range 4).foldl (fun v j => 256 * v + (block.getD (i * 4 + j) 0).toNat) 0)

/-- Word `t` of the message schedule. -/
def schedule (block : List UInt8) (t : Nat) : Word :=
  if t < 16 then blockWord block t
  else rotl 1 (schedule block (t - 3) ^^^ schedule block (t - 8) ^^^ schedule block (t - 14) ^^^
    schedule block (t - 16))

/-- The state after one block. -/
def compress (s : State) (block : List UInt8) : State :=
  let r := (List.range 80).foldl (fun r t => round t (schedule block t) r) s
  { a := s.a + r.a, b := s.b + r.b, c := s.c + r.c, d := s.d + r.d, e := s.e + r.e }

/-! ### Messages -/

/-- What is put behind a message of `len` bytes. -/
def padding (len : Nat) : List UInt8 :=
  0x80 :: (List.replicate ((119 - len % 64) % 64) 0 ++ bigEndian 8 (8 * len))

/-- The words of a state, in bytes. -/
def State.bytes (s : State) : List UInt8 :=
  bigEndian 4 s.a.toNat ++ bigEndian 4 s.b.toNat ++ bigEndian 4 s.c.toNat ++ bigEndian 4 s.d.toNat ++
    bigEndian 4 s.e.toNat

/-- The digest of a message. -/
def digest (message : List UInt8) : List UInt8 :=
  (workOff 64 compress initial (message ++ padding message.length)).1.bytes

/-- The zeros reach 56 bytes modulo 64, and no fewer do. -/
theorem padding_zeros (len : Nat) :
    (len + 1 + (119 - len % 64) % 64) % 64 = 56 ∧ ∀ k, (len + 1 + k) % 64 = 56 → (119 - len % 64) % 64 ≤ k := by
  constructor
  · omega
  · intro k hk
    omega

/-- A padded message is made of whole blocks. -/
theorem padded_length (message : List UInt8) : (message ++ padding message.length).length % 64 = 0 := by
  have hzeros := (padding_zeros message.length).1
  simp only [padding, bigEndian, List.length_append, List.length_cons, List.length_replicate,
    List.length_map, List.length_range]
  omega

end DS4.Lib.Sha1
