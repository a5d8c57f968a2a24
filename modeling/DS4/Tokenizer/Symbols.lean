import DS4.Lib.Bytes

namespace DS4.Tokenizer

/-!
# Tokenizer — bytes as symbols

Byte-level BPE maps every byte to a printable codepoint, so that merges work on UTF-8 strings without
losing bytes.  A token is read back codepoint by codepoint.

* `utf8Put`, `gpt2ByteToCodepoint`, `byteEncode` — a text as symbols.
* `utf8DecodeOne`, `gpt2CodepointToByte`, `decodeText` — and back; `decodeText_byteEncode` is the round
  trip.
* `splitSymbols` — the symbols of an encoded text; `splitSymbols_byteEncode` — one for each byte.
* `not_mem_byteEncode` — what an encoded text has no byte of.
-/

open DS4.Lib

/-- Texts. -/
abbrev Bytes := List UInt8

/-! ### UTF-8 -/

/-- `utf8_put` -/
def utf8Put (cp : Nat) : Bytes :=
  if cp ≤ 0x7f then [UInt8.ofNat cp]
  else if cp ≤ 0x7ff then
    [UInt8.ofNat (0xc0 ||| cp >>> 6), UInt8.ofNat (0x80 ||| (cp &&& 0x3f))]
  else if cp ≤ 0xffff then
    [UInt8.ofNat (0xe0 ||| cp >>> 12), UInt8.ofNat (0x80 ||| (cp >>> 6 &&& 0x3f)),
      UInt8.ofNat (0x80 ||| (cp &&& 0x3f))]
  else
    [UInt8.ofNat (0xf0 ||| cp >>> 18), UInt8.ofNat (0x80 ||| (cp >>> 12 &&& 0x3f)),
      UInt8.ofNat (0x80 ||| (cp >>> 6 &&& 0x3f)), UInt8.ofNat (0x80 ||| (cp &&& 0x3f))]

/-- `utf8_len_from_first_byte` -/
def utf8LenFromFirstByte (c : UInt8) : Nat :=
  if c < 0x80 then 1
  else if c &&& 0xe0 = 0xc0 then 2
  else if c &&& 0xf0 = 0xe0 then 3
  else if c &&& 0xf8 = 0xf0 then 4
  else 1

/-- `utf8_decode_one` at the start of a text: the codepoint, and how many bytes it takes. -/
def utf8DecodeOne (s : Bytes) : Nat × Nat :=
  let c := s.getD 0 0
  let tail (i : Nat) : Nat := (s.getD i 0 &&& 0x3f).toNat
  if c < 0x80 ∨ s.length ≤ 1 then (c.toNat, 1)
  else if c &&& 0xe0 = 0xc0 ∧ 1 < s.length then ((c &&& 0x1f).toNat <<< 6 ||| tail 1, 2)
  else if c &&& 0xf0 = 0xe0 ∧ 2 < s.length then
    ((c &&& 0x0f).toNat <<< 12 ||| tail 1 <<< 6 ||| tail 2, 3)
  else if c &&& 0xf8 = 0xf0 ∧ 3 < s.length then
    ((c &&& 0x07).toNat <<< 18 ||| tail 1 <<< 12 ||| tail 2 <<< 6 ||| tail 3, 4)
  else (c.toNat, 1)

/-! ### Bytes and codepoints -/

/-- The bytes that stand for themselves. -/
def printable (b : Nat) : Bool :=
  decide (33 ≤ b ∧ b ≤ 126) || decide (161 ≤ b ∧ b ≤ 172) || decide (174 ≤ b)

/-- The loop of `gpt2_byte_to_codepoint` over these values, with the counter. -/
def byteToCodepointLoop (b : Nat) : List Nat → Nat → Nat
  | [], _      => b
  | x :: xs, n =>
    if printable x then byteToCodepointLoop b xs n
    else if x = b then 256 + n
    else byteToCodepointLoop b xs (n + 1)

/-- `gpt2_byte_to_codepoint` -/
def gpt2ByteToCodepoint (b : UInt8) : Nat :=
  if printable b.toNat then b.toNat else byteToCodepointLoop b.toNat (List.range 256) 0

/-- The loop of `gpt2_codepoint_to_byte` over these values, with the counter. -/
def codepointToByteLoop (cp : Nat) : List Nat → Nat → Option Nat
  | [], _      => none
  | b :: bs, n =>
    if printable b then codepointToByteLoop cp bs n
    else if cp = 256 + n then some b
    else codepointToByteLoop cp bs (n + 1)

/-- `gpt2_codepoint_to_byte`; `none` for -1. -/
def gpt2CodepointToByte (cp : Nat) : Option Nat :=
  if printable cp ∧ cp ≤ 255 then some cp else codepointToByteLoop cp (List.range 256) 0

/-- The symbol of a byte. -/
def symbol (b : UInt8) : Bytes := utf8Put (gpt2ByteToCodepoint b)

/-- `byte_encode` -/
def byteEncode (s : Bytes) : Bytes := s.flatMap symbol

/-- The loop of `ds4_token_text`; a round takes at least a byte. -/
def decodeLoop : Nat → Bytes → Bytes
  | 0, _        => []
  | fuel + 1, s =>
    if s = [] then []
    else
      let (cp, n) := utf8DecodeOne s
      match gpt2CodepointToByte cp with
      | none   => decodeLoop fuel (s.drop n)
      | some b => UInt8.ofNat b :: decodeLoop fuel (s.drop n)

/-- A token that is not a literal one, as text. -/
def decodeText (s : Bytes) : Bytes := decodeLoop s.length s

/-- The loop over the characters of an encoded piece in `bpe_emit_piece`. -/
def splitSymbolsLoop : Nat → Bytes → List Bytes
  | 0, _        => []
  | fuel + 1, s =>
    if s = [] then []
    else
      let n := utf8LenFromFirstByte (s.getD 0 0)
      let n := if s.length < n then 1 else n
      s.take n :: splitSymbolsLoop fuel (s.drop n)

/-- The symbols of an encoded piece. -/
def splitSymbols (s : Bytes) : List Bytes := splitSymbolsLoop s.length s

/-! ### One symbol -/

/-- **The shape of a symbol**: an ASCII character that stands for itself, or a character of two bytes. -/
theorem symbol_cases (b : UInt8) :
    (∃ c, symbol b = [c] ∧ c < 0x80 ∧ c ≠ 0x20 ∧ gpt2CodepointToByte c.toNat = some b.toNat) ∨
    ∃ c d, symbol b = [c, d] ∧ ¬ c < 0x80 ∧ c &&& 0xe0 = 0xc0 ∧ ¬ d < 0x80 ∧ c ≠ 0xef ∧
      d &&& 0xc0 = 0x80 ∧
      gpt2CodepointToByte ((c &&& 0x1f).toNat <<< 6 ||| (d &&& 0x3f).toNat) = some b.toNat := by
  -- a check of the 256 bytes, with the bytes of the symbol computed
  have hcheck : ∀ b : UInt8,
      (∃ c ∈ (symbol b).head?, symbol b = [c] ∧ c < 0x80 ∧ c ≠ 0x20 ∧
        gpt2CodepointToByte c.toNat = some b.toNat) ∨
      ∃ c ∈ (symbol b).head?, ∃ d ∈ (symbol b).getLast?, symbol b = [c, d] ∧ ¬ c < 0x80 ∧
        c &&& 0xe0 = 0xc0 ∧ ¬ d < 0x80 ∧ c ≠ 0xef ∧ d &&& 0xc0 = 0x80 ∧
        gpt2CodepointToByte ((c &&& 0x1f).toNat <<< 6 ||| (d &&& 0x3f).toNat) = some b.toNat :=
    forall_uint8 (by decide +kernel)
  rcases hcheck b with ⟨c, -, h⟩ | ⟨c, -, d, -, h⟩
  · exact Or.inl ⟨c, h⟩
  · exact Or.inr ⟨c, d, h⟩

/-! ### Round trips -/

theorem byteEncode_cons (b : UInt8) (s : Bytes) : byteEncode (b :: s) = symbol b ++ byteEncode s :=
  rfl

theorem byteEncode_append (s t : Bytes) : byteEncode (s ++ t) = byteEncode s ++ byteEncode t :=
  List.flatMap_append

theorem symbol_ne_nil (b : UInt8) : symbol b ≠ [] := by
  rcases symbol_cases b with ⟨c, h, -⟩ | ⟨c, d, h, -⟩ <;> simp [h]

theorem byteEncode_eq_nil {s : Bytes} : byteEncode s = [] ↔ s = [] := by
  cases s with
  | nil => simp [byteEncode]
  | cons b s => simp [byteEncode_cons, symbol_ne_nil]

theorem length_le_byteEncode (s : Bytes) : s.length ≤ (byteEncode s).length := by
  induction s with
  | nil => exact Nat.zero_le _
  | cons b s ih =>
    have := List.length_pos_of_ne_nil (symbol_ne_nil b)
    rw [byteEncode_cons, List.length_append, List.length_cons]
    omega

/-- A symbol at the start of a text is decoded as a whole. -/
theorem utf8DecodeOne_symbol (b : UInt8) (s : Bytes) :
    (utf8DecodeOne (symbol b ++ s)).2 = (symbol b).length ∧
      gpt2CodepointToByte (utf8DecodeOne (symbol b ++ s)).1 = some b.toNat := by
  rcases symbol_cases b with ⟨c, h, hc, -, hb⟩ | ⟨c, d, h, hc, h₂, -, -, -, hb⟩
  · rw [h]
    unfold utf8DecodeOne
    simp [hc, hb]
  · rw [h]
    unfold utf8DecodeOne
    simpa [hc, h₂] using hb

theorem decodeLoop_byteEncode (s : Bytes) :
    ∀ fuel, (byteEncode s).length ≤ fuel → decodeLoop fuel (byteEncode s) = s := by
  induction s with
  | nil =>
    intro fuel _
    cases fuel <;> rfl
  | cons b s ih =>
    intro fuel hfuel
    rw [byteEncode_cons] at hfuel ⊢
    have hpos := List.length_pos_of_ne_nil (symbol_ne_nil b)
    rw [List.length_append] at hfuel
    obtain ⟨hn, hb⟩ := utf8DecodeOne_symbol b (byteEncode s)
    cases fuel with
    | zero => omega
    | succ fuel =>
      unfold decodeLoop
      rw [if_neg (by simp [symbol_ne_nil])]
      simp only [hb, hn, List.drop_left, UInt8.ofNat_toNat]
      rw [ih fuel (by omega)]

/-- **Round trip.** An encoded text is decoded to the text. -/
theorem decodeText_byteEncode (s : Bytes) : decodeText (byteEncode s) = s :=
  decodeLoop_byteEncode s _ (Nat.le_refl _)

/-- A symbol at the start of a text is cut off as a whole. -/
theorem symbol_length (b : UInt8) (s : Bytes) :
    utf8LenFromFirstByte ((symbol b ++ s).getD 0 0) = (symbol b).length := by
  rcases symbol_cases b with ⟨c, h, hc, -⟩ | ⟨c, d, h, hc, h₂, -⟩
  · simp [h, utf8LenFromFirstByte, hc]
  · simp [h, utf8LenFromFirstByte, hc, h₂]

theorem splitSymbolsLoop_byteEncode (s : Bytes) :
    ∀ fuel, (byteEncode s).length ≤ fuel → splitSymbolsLoop fuel (byteEncode s) = s.map symbol := by
  induction s with
  | nil =>
    intro fuel _
    cases fuel <;> rfl
  | cons b s ih =>
    intro fuel hfuel
    rw [byteEncode_cons] at hfuel ⊢
    have hpos := List.length_pos_of_ne_nil (symbol_ne_nil b)
    rw [List.length_append] at hfuel
    cases fuel with
    | zero => omega
    | succ fuel =>
      unfold splitSymbolsLoop
      rw [if_neg (by simp [symbol_ne_nil])]
      simp only [symbol_length]
      rw [if_neg (by simp), List.take_left, List.drop_left, ih fuel (by omega), List.map_cons]

/-- **The symbols** of an encoded text: one for each byte. -/
theorem splitSymbols_byteEncode (s : Bytes) : splitSymbols (byteEncode s) = s.map symbol :=
  splitSymbolsLoop_byteEncode s _ (Nat.le_refl _)

/-- No symbol has a space or the first byte of a full-width bar in it. -/
theorem not_mem_byteEncode (s : Bytes) : (0x20 : UInt8) ∉ byteEncode s ∧ (0xef : UInt8) ∉ byteEncode s := by
  have hsymbol : ∀ b, (0x20 : UInt8) ∉ symbol b ∧ (0xef : UInt8) ∉ symbol b :=
    forall_uint8 (by decide +kernel)
  unfold byteEncode
  simp only [List.mem_flatMap, not_exists, not_and]
  exact ⟨fun b _ => (hsymbol b).1, fun b _ => (hsymbol b).2⟩

end DS4.Tokenizer
