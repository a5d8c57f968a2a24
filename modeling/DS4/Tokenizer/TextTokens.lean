import DS4.Tokenizer.RenderedChat

namespace DS4.Tokenizer

/-!
# Tokenizer — the tokens that a text can have

A token of a text is that of a string that lies in an encoded piece, or that of one byte.  So the marker
of a special token is the string of a token of the text only where it lies in a piece.

* `mergeSymbols_flatten` — merging keeps the encoded piece.
* `mem_bpeEmitPiece` — the string of a token of a piece.
* `infix_of_byteEncode` — ASCII bytes that lie in an encoded text lie in the text.
* `not_mem_of_bar`, `not_mem_of_ascii` — special tokens that a text has not.
-/

open DS4.Lib

variable {v : Vocab} {tokens merges : List Bytes} {s : Bytes} {sym : List Bytes}

/-! ### Symbols -/

theorem mergeLoop_flatten (fuel : Nat) (sym : List Bytes) : (mergeLoop v fuel sym).flatten = sym.flatten := by
  induction fuel generalizing sym with
  | zero => rfl
  | succ fuel ih =>
    unfold mergeLoop
    cases hbest : bestMerge v sym with
    | none => rfl
    | some k =>
      dsimp only
      obtain ⟨l, a, b, r, rfl, rfl, -⟩ := bestMerge_eq_some hbest
      rw [ih, mergeAt_length]
      simp

/-- **Merging** keeps the encoded piece. -/
theorem mergeSymbols_flatten (v : Vocab) (piece : Bytes) :
    (mergeSymbols v (splitSymbols (byteEncode piece))).flatten = byteEncode piece := by
  rw [mergeSymbols, mergeLoop_flatten, splitSymbols_byteEncode]
  rfl

/-- **A token of a piece** is that of a string in the encoded piece, or that of one byte. -/
theorem mem_bpeEmitPiece {piece : Bytes} {token : Int} (h : token ∈ bpeEmitPiece v piece) :
    ∃ s, v.tokenToId.lookup s = some token ∧ (s <:+: byteEncode piece ∨ s.length = 1) := by
  obtain ⟨s, hs, htoken⟩ := List.mem_flatMap.mp h
  unfold emitSymbol at htoken
  split at htoken
  · rename_i token' hlookup
    rw [List.mem_singleton.mp htoken]
    refine ⟨s, hlookup, Or.inl ?_⟩
    rw [← mergeSymbols_flatten v piece]
    exact List.infix_of_mem_flatten hs
  · obtain ⟨c, -, hlookup⟩ := List.mem_filterMap.mp htoken
    exact ⟨[c], hlookup, Or.inr rfl⟩

/-! ### ASCII bytes -/

/-- A symbol is its byte, or has no ASCII byte. -/
theorem symbol_ascii (b : UInt8) : symbol b = [b] ∨ ∃ c d, symbol b = [c, d] ∧ 0x80 ≤ c ∧ 0x80 ≤ d := by
  have h : ∀ b, symbol b = [b] ∨ (symbol b = [(symbol b).getD 0 0, (symbol b).getD 1 0] ∧
      0x80 ≤ (symbol b).getD 0 0 ∧ 0x80 ≤ (symbol b).getD 1 0) := forall_uint8 (by decide +kernel)
  rcases h b with h | h
  · exact Or.inl h
  · exact Or.inr ⟨_, _, h⟩

theorem prefix_of_byteEncode {m : Bytes} (hm : ∀ c ∈ m, c < 0x80) (h : m <+: byteEncode s) : m <+: s := by
  induction m generalizing s with
  | nil => exact List.nil_prefix
  | cons c m ih =>
    have hc := hm c List.mem_cons_self
    cases s with
    | nil => exact absurd (List.prefix_nil.mp h) (List.cons_ne_nil c m)
    | cons b s =>
      rw [byteEncode_cons] at h
      rcases symbol_ascii b with hsym | ⟨x, y, hsym, hx, -⟩
      · rw [hsym, List.singleton_append, List.cons_prefix_cons] at h
        rw [List.cons_prefix_cons]
        exact ⟨h.1, ih (fun d hd => hm d (List.mem_cons_of_mem c hd)) h.2⟩
      · rw [hsym, List.cons_append, List.cons_prefix_cons] at h
        rw [h.1] at hc
        exact absurd hx (UInt8.not_le.mpr hc)

/-- **ASCII bytes** that lie in an encoded text lie in the text. -/
theorem infix_of_byteEncode {m : Bytes} (hne : m ≠ []) (hm : ∀ c ∈ m, c < 0x80) (h : m <:+: byteEncode s) :
    m <:+: s := by
  induction s with
  | nil => exact absurd (List.infix_nil.mp h) hne
  | cons b s ih =>
    rw [byteEncode_cons] at h
    rcases symbol_ascii b with hsym | ⟨x, y, hsym, -, hy⟩
    · rw [hsym, List.singleton_append, List.infix_cons_iff] at h
      rcases h with h | h
      · have henc : b :: byteEncode s = byteEncode (b :: s) := by
          rw [byteEncode_cons, hsym, List.singleton_append]
        rw [henc] at h
        exact (prefix_of_byteEncode hm h).isInfix
      · exact (ih h).trans (List.suffix_cons b s).isInfix
    · rw [hsym, List.cons_append, List.singleton_append, List.infix_cons_iff, List.infix_cons_iff] at h
      rcases h with h | h | h
      · have henc : x :: y :: byteEncode s = byteEncode (b :: s) := by
          rw [byteEncode_cons, hsym, List.cons_append, List.singleton_append]
        rw [henc] at h
        exact (prefix_of_byteEncode hm h).isInfix
      · -- the second byte of the symbol is not ASCII
        obtain ⟨c, m, rfl⟩ := List.exists_cons_of_ne_nil hne
        rw [List.cons_prefix_cons] at h
        have hc := hm c List.mem_cons_self
        rw [h.1] at hc
        exact absurd hy (UInt8.not_le.mpr hc)
      · exact (ih h).trans (List.suffix_cons b s).isInfix

/-! ### Special tokens -/

/-- A special token has the string that is looked up for it. -/
theorem string_of_lookup (h : vocabLoad tokens merges = some v) {marker : Bytes} {token : Int}
    (hmarker : v.tokenToId.lookup marker = some token) (hs : v.tokenToId.lookup s = some token) : s = marker :=
  (token_of_lookup h hs).2.2.symm.trans (token_of_lookup h hmarker).2.2

/-- **A marker with a bar** is not the string of a token of a text. -/
theorem not_mem_of_bar (h : vocabLoad tokens merges = some v) {marker : Bytes} {token : Int}
    (hmarker : v.tokenToId.lookup marker = some token) (hbar : 0xef ∈ marker) (hlen : 1 < marker.length)
    (text : Bytes) : token ∉ bpeTokenizeText v text := by
  intro hmem
  obtain ⟨piece, -, htoken⟩ := List.mem_flatMap.mp hmem
  obtain ⟨s, hs, hwhere⟩ := mem_bpeEmitPiece htoken
  obtain rfl := string_of_lookup h hmarker hs
  rcases hwhere with hin | hone
  · exact (not_mem_byteEncode piece).2 (hin.subset hbar)
  · omega

/-- **An ASCII marker** is not the string of a token of a text where it lies in no piece. -/
theorem not_mem_of_ascii (h : vocabLoad tokens merges = some v) {marker : Bytes} {token : Int}
    (hmarker : v.tokenToId.lookup marker = some token) (hascii : ∀ c ∈ marker, c < 0x80) (hlen : 1 < marker.length)
    {text : Bytes} (hpieces : ∀ piece ∈ pieces text, ¬ marker <:+: piece) : token ∉ bpeTokenizeText v text := by
  intro hmem
  obtain ⟨piece, hpiece, htoken⟩ := List.mem_flatMap.mp hmem
  obtain ⟨s, hs, hwhere⟩ := mem_bpeEmitPiece htoken
  obtain rfl := string_of_lookup h hmarker hs
  rcases hwhere with hin | hone
  · have hne : s ≠ [] := List.ne_nil_of_length_pos (Nat.lt_trans Nat.zero_lt_one hlen)
    exact hpieces piece hpiece (infix_of_byteEncode hne hascii hin)
  · omega

end DS4.Tokenizer
