import DS4.Tokenizer.Bpe

namespace DS4.Tokenizer

/-!
# Tokenizer — the split into pieces

`bpe_tokenize_text` cuts a text into pieces, and encodes each of them.  Here a position in the text is
the text from there on.

* `pieceRest` — one round of its loop: what is behind the piece at the start of a text.
* `pieces`, `bpeTokenizeText` — the whole loop.
* `pieces_flatten` — the pieces make up the text.
* `tokenText_bpeTokenizeText` — and so do the texts of the tokens.
-/

open DS4.Lib

/-- What `strlen` sees of a text. -/
def cstr (s : Bytes) : Bytes := s.takeWhile fun c => c ≠ 0

/-! ### Characters -/

/-- `ascii_alpha` -/
def asciiAlpha (c : UInt8) : Bool := decide (0x41 ≤ c ∧ c ≤ 0x5a) || decide (0x61 ≤ c ∧ c ≤ 0x7a)

/-- `ascii_digit` -/
def asciiDigit (c : UInt8) : Bool := decide (0x30 ≤ c ∧ c ≤ 0x39)

/-- `ascii_space` -/
def asciiSpace (c : UInt8) : Bool :=
  c == 0x20 || c == 0x09 || c == 0x0a || c == 0x0d || c == 0x0b || c == 0x0c

/-- `ascii_newline` -/
def asciiNewline (c : UInt8) : Bool := c == 0x0a || c == 0x0d

/-- `joyai_ascii_punct_symbol` -/
def joyaiAsciiPunctSymbol (c : UInt8) : Bool :=
  decide (0x21 ≤ c ∧ c ≤ 0x2f) || decide (0x3a ≤ c ∧ c ≤ 0x40) || decide (0x5b ≤ c ∧ c ≤ 0x60) ||
    decide (0x7b ≤ c ∧ c ≤ 0x7e)

/-- `utf8_is_cjk_hira_kata` -/
def utf8IsCjkHiraKata (cp : Nat) : Bool :=
  decide (0x4e00 ≤ cp ∧ cp ≤ 0x9fa5) || decide (0x3040 ≤ cp ∧ cp ≤ 0x309f) ||
    decide (0x30a0 ≤ cp ∧ cp ≤ 0x30ff)

/-- How many bytes the character at the start of a text takes. -/
def utf8CharLen (s : Bytes) : Nat :=
  let n := utf8LenFromFirstByte (s.getD 0 0)
  if s.length < n then 1 else n

/-- `next_utf8_char` -/
def nextUtf8Char (s : Bytes) : Bytes := s.drop (utf8CharLen s)

/-- `utf8_peek_one` -/
def utf8PeekOne (s : Bytes) : Nat :=
  let c := s.getD 0 0
  let tail (i : Nat) : Nat := (s.getD i 0 &&& 0x3f).toNat
  let n := utf8CharLen s
  if n = 1 then c.toNat
  else if n = 2 then (c &&& 0x1f).toNat <<< 6 ||| tail 1
  else if n = 3 then (c &&& 0x0f).toNat <<< 12 ||| tail 1 <<< 6 ||| tail 2
  else (c &&& 0x07).toNat <<< 18 ||| tail 1 <<< 12 ||| tail 2 <<< 6 ||| tail 3

/-- `joyai_letter_like_at` -/
def joyaiLetterLikeAt (s : Bytes) : Bool :=
  let c := s.getD 0 0
  if c < 0x80 then asciiAlpha c else true

/-- `joyai_cjk_at` -/
def joyaiCjkAt (s : Bytes) : Bool :=
  if s.getD 0 0 < 0x80 then false else utf8IsCjkHiraKata (utf8PeekOne s)

/-! ### Runs -/

/-- A loop over characters. -/
def charsWhile (at' : Bytes → Bool) : Nat → Bytes → Bytes
  | 0, s        => s
  | fuel + 1, s => if s ≠ [] ∧ at' s then charsWhile at' fuel (nextUtf8Char s) else s

/-- `joyai_consume_letters` -/
def joyaiConsumeLetters (s : Bytes) : Bytes := charsWhile joyaiLetterLikeAt s.length s

/-- The loop over at most this many digits. -/
def digits : Nat → Bytes → Bytes
  | n + 1, c :: s => if asciiDigit c then digits n s else c :: s
  | _, s          => s

/-- The loop over spaces: where it stops, and where the last newline ends. -/
def spaceLoop : Bytes → Nat → Nat → Nat × Nat
  | [], p, last     => (p, last)
  | c :: s, p, last =>
    if asciiSpace c then spaceLoop s (p + 1) (if asciiNewline c then p + 1 else last) else (p, last)

/-- The branch for spaces. -/
def spaceRest (s : Bytes) : Bytes :=
  let (p, lastNewlineEnd) := spaceLoop s 0 0
  if lastNewlineEnd ≠ 0 then s.drop lastNewlineEnd
  else if p < s.length ∧ 1 < p ∧
      (joyaiLetterLikeAt (s.drop p) ∨ joyaiAsciiPunctSymbol ((s.drop p).getD 0 0)) then
    -- one space stays for the next piece
    s.drop (p - 1)
  else s.drop p

/-! ### Pieces -/

/-- The branches of the loop of `bpe_tokenize_text`. -/
def pieceRest (s : Bytes) : Bytes :=
  let c := s.getD 0 0
  let d := s.getD 1 0
  if asciiDigit c then digits 3 s
  else if joyaiCjkAt s then charsWhile joyaiCjkAt s.length (nextUtf8Char s)
  else if joyaiAsciiPunctSymbol c ∧ 1 < s.length ∧ asciiAlpha d then (s.drop 1).dropWhile asciiAlpha
  else if joyaiLetterLikeAt s then joyaiConsumeLetters s
  else if ¬ asciiNewline c ∧ ¬ joyaiAsciiPunctSymbol c ∧ 1 < s.length ∧ joyaiLetterLikeAt (s.drop 1) then
    joyaiConsumeLetters (s.drop 1)
  else if c = 0x20 ∧ 1 < s.length ∧ joyaiAsciiPunctSymbol d then
    ((s.drop 1).dropWhile joyaiAsciiPunctSymbol).dropWhile asciiNewline
  else if joyaiAsciiPunctSymbol c then (s.dropWhile joyaiAsciiPunctSymbol).dropWhile asciiNewline
  else if asciiSpace c then spaceRest s
  else nextUtf8Char s

/-- The text behind its first piece, which has a character at least. -/
def afterPiece (s : Bytes) : Bytes :=
  if (pieceRest s).length = s.length then nextUtf8Char (pieceRest s) else pieceRest s

/-- The loop of `bpe_tokenize_text`; a round takes at least a byte. -/
def piecesLoop : Nat → Bytes → List Bytes
  | 0, _        => []
  | fuel + 1, s =>
    if s = [] then []
    else s.take (s.length - (afterPiece s).length) :: piecesLoop fuel (afterPiece s)

/-- The pieces of a text. -/
def pieces (text : Bytes) : List Bytes := piecesLoop (cstr text).length (cstr text)

/-- `bpe_tokenize_text` -/
def bpeTokenizeText (v : Vocab) (text : Bytes) : List Int := (pieces text).flatMap (bpeEmitPiece v)

/-! ### What is behind a piece -/

variable {s : Bytes}

theorem cstr_eq_self (h : (0 : UInt8) ∉ s) : cstr s = s := by
  unfold cstr
  induction s with
  | nil => rfl
  | cons c s ih =>
    have hc : c ≠ 0 := fun hc => h (hc ▸ List.mem_cons_self)
    rw [List.takeWhile_cons, if_pos (decide_eq_true hc), ih fun hs => h (List.mem_cons_of_mem c hs)]

theorem utf8CharLen_pos (s : Bytes) : 0 < utf8CharLen s := by
  unfold utf8CharLen utf8LenFromFirstByte
  dsimp only
  repeat' split
  all_goals omega

theorem nextUtf8Char_length (h : s ≠ []) : (nextUtf8Char s).length < s.length := by
  have hpos := utf8CharLen_pos s
  have hlen := List.length_pos_of_ne_nil h
  rw [nextUtf8Char, List.length_drop]
  omega

theorem nextUtf8Char_suffix (s : Bytes) : nextUtf8Char s <:+ s := List.drop_suffix _ _

theorem charsWhile_suffix (at' : Bytes → Bool) :
    ∀ (fuel : Nat) (s : Bytes), charsWhile at' fuel s <:+ s := by
  intro fuel
  induction fuel with
  | zero => exact fun s => List.suffix_rfl
  | succ fuel ih =>
    intro s
    unfold charsWhile
    split
    · exact (ih _).trans (nextUtf8Char_suffix s)
    · exact List.suffix_rfl

/-- **The loop over characters ends** where there is no such character. -/
theorem charsWhile_done (at' : Bytes → Bool) :
    ∀ (fuel : Nat) (s : Bytes), s.length ≤ fuel →
      charsWhile at' fuel s = [] ∨ at' (charsWhile at' fuel s) = false := by
  intro fuel
  induction fuel with
  | zero => exact fun s hlen => Or.inl (List.eq_nil_of_length_eq_zero (Nat.le_zero.mp hlen))
  | succ fuel ih =>
    intro s hlen
    unfold charsWhile
    split
    · rename_i h
      have := nextUtf8Char_length h.1
      exact ih _ (by omega)
    · rename_i h
      by_cases hs : s = []
      · exact Or.inl hs
      · exact Or.inr (by simpa [hs] using h)

theorem digits_suffix : ∀ (n : Nat) (s : Bytes), digits n s <:+ s := by
  intro n
  induction n with
  | zero => exact fun s => List.suffix_rfl
  | succ n ih =>
    intro s
    cases s with
    | nil => exact List.suffix_rfl
    | cons c s =>
      unfold digits
      split
      · exact (ih s).trans (List.suffix_cons c s)
      · exact List.suffix_rfl

theorem spaceRest_suffix (s : Bytes) : spaceRest s <:+ s := by
  unfold spaceRest
  dsimp only
  repeat' split
  all_goals exact List.drop_suffix _ _

/-- **Every branch** leaves an end of the text. -/
theorem pieceRest_suffix (s : Bytes) : pieceRest s <:+ s := by
  have hdrop : s.drop 1 <:+ s := List.drop_suffix 1 s
  unfold pieceRest
  dsimp only
  split
  · exact digits_suffix 3 s
  split
  · exact (charsWhile_suffix _ _ _).trans (nextUtf8Char_suffix s)
  split
  · exact (List.dropWhile_suffix _).trans hdrop
  split
  · exact charsWhile_suffix _ _ _
  split
  · exact (charsWhile_suffix _ _ _).trans hdrop
  split
  · exact ((List.dropWhile_suffix _).trans (List.dropWhile_suffix _)).trans hdrop
  split
  · exact (List.dropWhile_suffix _).trans (List.dropWhile_suffix _)
  split
  · exact spaceRest_suffix s
  · exact nextUtf8Char_suffix s

theorem afterPiece_suffix (s : Bytes) : afterPiece s <:+ s := by
  unfold afterPiece
  split
  · exact (nextUtf8Char_suffix _).trans (pieceRest_suffix s)
  · exact pieceRest_suffix s

/-- **A round** takes at least a byte. -/
theorem afterPiece_length (h : s ≠ []) : (afterPiece s).length < s.length := by
  have hle := (pieceRest_suffix s).length_le
  unfold afterPiece
  split
  · rename_i hlen
    have hne : pieceRest s ≠ [] := by
      rw [← List.length_pos_iff, hlen]
      exact List.length_pos_of_ne_nil h
    rw [← hlen]
    exact nextUtf8Char_length hne
  · omega

/-! ### All pieces -/

theorem take_append_of_suffix {r : Bytes} (h : r <:+ s) : s.take (s.length - r.length) ++ r = s := by
  conv_lhs => rw [List.suffix_iff_eq_drop.mp h]
  rw [List.length_drop]
  have hle := h.length_le
  rw [show s.length - (s.length - (s.length - r.length)) = s.length - r.length by omega,
    List.take_append_drop]

theorem piecesLoop_flatten :
    ∀ (fuel : Nat) (s : Bytes), s.length ≤ fuel → (piecesLoop fuel s).flatten = s := by
  intro fuel
  induction fuel with
  | zero =>
    intro s hlen
    rw [List.eq_nil_of_length_eq_zero (Nat.le_zero.mp hlen)]
    rfl
  | succ fuel ih =>
    intro s hlen
    unfold piecesLoop
    split
    · rename_i hs
      rw [hs, List.flatten_nil]
    · rename_i hs
      have hlt := afterPiece_length hs
      rw [List.flatten_cons, ih _ (by omega)]
      exact take_append_of_suffix (afterPiece_suffix s)

/-- **The pieces** make up the text. -/
theorem pieces_flatten (text : Bytes) : (pieces text).flatten = cstr text :=
  piecesLoop_flatten _ _ (Nat.le_refl _)

/-- **The texts of the tokens** make up the text. -/
theorem tokenText_bpeTokenizeText {v : Vocab} {tokens merges : List Bytes}
    (h : vocabLoad tokens merges = some v) (hc : Complete tokens merges) (text : Bytes) :
    (bpeTokenizeText v text).flatMap (tokenText v) = cstr text := by
  rw [← pieces_flatten text, bpeTokenizeText, List.flatMap_assoc]
  simp only [tokenText_bpeEmitPiece h hc]
  exact List.flatMap_id'

end DS4.Tokenizer
