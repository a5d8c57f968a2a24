import DS4.Tokenizer.Symbols
import Mathlib.Data.List.AList

namespace DS4.Tokenizer

/-!
# Tokenizer — byte-pair encoding of one piece

A vocabulary has the strings of its tokens and two tables, from strings to ids and from pairs of
symbols to ranks.  A piece is cut into symbols, the pair of best rank is merged until there is none,
and the symbols that remain are looked up.

* `vocabLoad` — a vocabulary from the two lists of strings in a model file.
* `bpeEmitPiece` — the tokens of a piece.
* `tokenText` — the text of a token.
* `mergeSymbols_done` — the loop of merges ends where no pair has a rank.
* `tokenText_bpeEmitPiece` — the texts of the tokens of a piece make up the piece.
-/

open DS4.Lib

/-! ### Vocabularies -/

/-- The UTF-8 bytes of a literal. -/
def lit (s : String) : Bytes := s.toList.flatMap String.utf8EncodeChar

/-- `str_i32_table` -/
abbrev Table := AList fun _ : Bytes => Int

/-- `ds4_vocab` -/
structure Vocab where
  token        : List Bytes
  tokenToId    : Table
  mergeRank    : Table
  bosId        : Int
  eosId        : Int
  userId       : Int
  assistantId  : Int
  thinkStartId : Int
  thinkEndId   : Int
  dsmlId       : Int

/-- The loops of `vocab_load`: every string with its index, which is a 32-bit integer. -/
def tablePutAll : Nat → List Bytes → Table → Table
  | _, [], t      => t
  | i, s :: ss, t => tablePutAll (i + 1) ss (t.insert s (Int.bmod i 0x100000000))

def BOS : Bytes := lit "<｜begin▁of▁sentence｜>"
def EOS : Bytes := lit "<｜end▁of▁sentence｜>"
def USER : Bytes := lit "<｜User｜>"
def ASSISTANT : Bytes := lit "<｜Assistant｜>"
def THINK_START : Bytes := lit "<think>"
def THINK_END : Bytes := lit "</think>"
def DSML : Bytes := lit "｜DSML｜"

/-- `vocab_load`; there is no vocabulary when a special token is missing. -/
def vocabLoad (tokens merges : List Bytes) : Option Vocab :=
  if 0x7fffffff < tokens.length then none
  else do
    let tokenToId := tablePutAll 0 tokens ∅
    let bosId ← tokenToId.lookup BOS
    let eosId ← tokenToId.lookup EOS
    let userId ← tokenToId.lookup USER
    let assistantId ← tokenToId.lookup ASSISTANT
    let thinkStartId ← tokenToId.lookup THINK_START
    let thinkEndId ← tokenToId.lookup THINK_END
    let dsmlId ← tokenToId.lookup DSML
    some
      { token := tokens, tokenToId := tokenToId, mergeRank := tablePutAll 0 merges ∅,
        bosId := bosId, eosId := eosId, userId := userId, assistantId := assistantId,
        thinkStartId := thinkStartId, thinkEndId := thinkEndId, dsmlId := dsmlId }

/-! ### One piece -/

/-- `bpe_rank` -/
def bpeRank (v : Vocab) (a b : Bytes) : Int := (v.mergeRank.lookup (a ++ 0x20 :: b)).getD (-1)

/-- The loop over the pairs from index `i` on, with the best pair so far and its rank. -/
def bestLoop (v : Vocab) : Nat → List Bytes → Option Nat × Int → Option Nat
  | i, a :: b :: sym, best =>
    let rank := bpeRank v a b
    bestLoop v (i + 1) (b :: sym) (if 0 ≤ rank ∧ rank < best.2 then (some i, rank) else best)
  | _, _, best            => best.1

/-- The index of the first pair of lowest rank. -/
def bestMerge (v : Vocab) (sym : List Bytes) : Option Nat := bestLoop v 0 sym (none, 0x7fffffff)

/-- The symbols when the pair at an index is merged. -/
def mergeAt (sym : List Bytes) (i : Nat) : List Bytes :=
  sym.take i ++ (sym.getD i [] ++ sym.getD (i + 1) []) :: sym.drop (i + 2)

/-- The loop of merges. -/
def mergeLoop (v : Vocab) : Nat → List Bytes → List Bytes
  | 0, sym        => sym
  | fuel + 1, sym =>
    match bestMerge v sym with
    | none   => sym
    | some i => mergeLoop v fuel (mergeAt sym i)

/-- The symbols when no pair is left. A merge leaves one symbol less. -/
def mergeSymbols (v : Vocab) (sym : List Bytes) : List Bytes := mergeLoop v sym.length sym

/-- The tokens of a symbol: its own one, or those of its bytes. -/
def emitSymbol (v : Vocab) (sym : Bytes) : List Int :=
  match v.tokenToId.lookup sym with
  | some token => [token]
  | none       => sym.filterMap fun c => v.tokenToId.lookup [c]

/-- `bpe_emit_piece` -/
def bpeEmitPiece (v : Vocab) (rawPiece : Bytes) : List Int :=
  (mergeSymbols v (splitSymbols (byteEncode rawPiece))).flatMap (emitSymbol v)

/-! ### Texts -/

/-- U+FF5C, the full-width vertical bar. -/
def bar : Bytes := [0xef, 0xbd, 0x9c]

/-- `vocab_token_is_literal_special` -/
def vocabTokenIsLiteralSpecial (s : Bytes) : Bool :=
  (List.range (s.length + 1 - bar.length)).any fun i => (s.drop i).take bar.length = bar

/-- `ds4_token_text` -/
def tokenText (v : Vocab) (token : Int) : Bytes :=
  if token < 0 ∨ (v.token.length : Int) ≤ token then []
  else
    let s := v.token.getD token.toNat []
    if vocabTokenIsLiteralSpecial s then s else decodeText s

/-- The tokens that a vocabulary needs so that no byte is lost: one for each symbol, and one for the
    result of each merge. -/
structure Complete (tokens merges : List Bytes) : Prop where
  bytes  : ∀ b, symbol b ∈ tokens
  merges : ∀ a b, a ++ 0x20 :: b ∈ merges → (0x20 : UInt8) ∉ a → (0x20 : UInt8) ∉ b → a ++ b ∈ tokens

/-! ### Tables -/

variable {v : Vocab} {tokens merges : List Bytes} {s : Bytes} {sym : List Bytes}

/-- **A table** has what was put last for a key. -/
theorem lookup_tablePutAll (ss : List Bytes) :
    ∀ (i : Nat) (t : Table) (s : Bytes), (tablePutAll i ss t).lookup s = t.lookup s ∧ s ∉ ss ∨
      ∃ j, ss[j]? = some s ∧
        (tablePutAll i ss t).lookup s = some (Int.bmod ((i + j : Nat) : Int) 0x100000000) := by
  induction ss with
  | nil => exact fun i t s => Or.inl ⟨rfl, List.not_mem_nil⟩
  | cons x ss ih =>
    intro i t s
    unfold tablePutAll
    rcases ih (i + 1) (t.insert x (Int.bmod i 0x100000000)) s with ⟨hl, hs⟩ | ⟨j, hj, hl⟩
    · by_cases hx : s = x
      · subst hx
        refine Or.inr ⟨0, rfl, ?_⟩
        rw [hl, AList.lookup_insert, Nat.add_zero]
      · refine Or.inl ⟨?_, ?_⟩
        · rw [hl, AList.lookup_insert_ne hx]
        · simp [hx, hs]
    · refine Or.inr ⟨j + 1, by simpa using hj, ?_⟩
      rw [hl, Nat.add_assoc, Nat.add_comm 1 j]

theorem vocabLoad_eq (h : vocabLoad tokens merges = some v) :
    tokens.length ≤ 0x7fffffff ∧ v.token = tokens ∧ v.tokenToId = tablePutAll 0 tokens ∅ ∧
      v.mergeRank = tablePutAll 0 merges ∅ ∧ v.tokenToId.lookup BOS = some v.bosId ∧
      v.tokenToId.lookup EOS = some v.eosId ∧ v.tokenToId.lookup USER = some v.userId ∧
      v.tokenToId.lookup ASSISTANT = some v.assistantId ∧
      v.tokenToId.lookup THINK_START = some v.thinkStartId ∧
      v.tokenToId.lookup THINK_END = some v.thinkEndId ∧ v.tokenToId.lookup DSML = some v.dsmlId := by
  unfold vocabLoad at h
  split at h
  · cases h
  · rename_i hlen
    simp only [Option.bind_eq_bind, Option.bind_eq_some_iff, Option.some.injEq] at h
    obtain ⟨bosId, h₁, eosId, h₂, userId, h₃, assistantId, h₄, thinkStartId, h₅, thinkEndId, h₆,
      dsmlId, h₇, rfl⟩ := h
    exact ⟨Nat.not_lt.mp hlen, rfl, rfl, rfl, h₁, h₂, h₃, h₄, h₅, h₆, h₇⟩

/-- **An id** is that of a token with the string. -/
theorem token_of_lookup (h : vocabLoad tokens merges = some v) {token : Int}
    (hl : v.tokenToId.lookup s = some token) :
    0 ≤ token ∧ token < v.token.length ∧ v.token.getD token.toNat [] = s := by
  obtain ⟨hlen, htoken, hids, -⟩ := vocabLoad_eq h
  rw [hids] at hl
  rw [htoken]
  rcases lookup_tablePutAll tokens 0 ∅ s with ⟨hnone, -⟩ | ⟨j, hj, hsome⟩
  · rw [hnone, AList.lookup_empty] at hl
    cases hl
  · have hjl : j < tokens.length := by
      rw [List.getElem?_eq_some_iff] at hj
      exact hj.1
    rw [hsome, Nat.zero_add] at hl
    obtain rfl := Option.some.inj hl
    have hbmod : Int.bmod (j : Int) 0x100000000 = j := by
      rw [Int.bmod_def]
      omega
    rw [hbmod]
    refine ⟨by omega, by omega, ?_⟩
    rw [Int.toNat_natCast, List.getD_eq_getElem?_getD, hj, Option.getD_some]

theorem lookup_of_mem (h : vocabLoad tokens merges = some v) (hs : s ∈ tokens) :
    ∃ token, v.tokenToId.lookup s = some token := by
  obtain ⟨-, -, hids, -⟩ := vocabLoad_eq h
  rw [hids]
  rcases lookup_tablePutAll tokens 0 ∅ s with ⟨-, hnot⟩ | ⟨j, -, hl⟩
  · exact absurd hs hnot
  · exact ⟨_, hl⟩

/-- A pair that has a rank is one of the merges. -/
theorem mem_of_bpeRank (h : vocabLoad tokens merges = some v) {a b : Bytes}
    (hr : 0 ≤ bpeRank v a b) : a ++ 0x20 :: b ∈ merges := by
  obtain ⟨-, -, -, hranks, -⟩ := vocabLoad_eq h
  unfold bpeRank at hr
  rw [hranks] at hr
  rcases lookup_tablePutAll merges 0 ∅ (a ++ 0x20 :: b) with ⟨hnone, -⟩ | ⟨j, hj, -⟩
  · rw [hnone, AList.lookup_empty] at hr
    exact absurd hr (by decide)
  · exact List.mem_of_getElem? hj

/-! ### Merges -/

/-- A pair that the loop finds has a rank. -/
theorem bestLoop_eq_some :
    ∀ (sym : List Bytes) (i : Nat) (best : Option Nat × Int) (k : Nat),
      bestLoop v i sym best = some k → best.1 = some k ∨
        ∃ l a b r, sym = l ++ a :: b :: r ∧ k = i + l.length ∧ 0 ≤ bpeRank v a b := by
  intro sym
  induction sym with
  | nil => exact fun i best k h => Or.inl h
  | cons a sym ih =>
    intro i best k h
    cases sym with
    | nil => exact Or.inl h
    | cons b sym =>
      unfold bestLoop at h
      dsimp only at h
      rcases ih _ _ _ h with hbest | ⟨l, a', b', r, hsym, hk, hr⟩
      · split at hbest
        · rename_i hrank
          exact Or.inr ⟨[], a, b, sym, rfl, (Option.some.inj hbest).symm, hrank.1⟩
        · exact Or.inl hbest
      · refine Or.inr ⟨a :: l, a', b', r, ?_, ?_, hr⟩
        · rw [hsym, List.cons_append]
        · rw [hk, List.length_cons]
          omega

theorem bestMerge_eq_some {k : Nat} (h : bestMerge v sym = some k) :
    ∃ l a b r, sym = l ++ a :: b :: r ∧ k = l.length ∧ 0 ≤ bpeRank v a b := by
  rcases bestLoop_eq_some sym 0 (none, 0x7fffffff) k h with hnone | ⟨l, a, b, r, hsym, hk, hr⟩
  · cases hnone
  · exact ⟨l, a, b, r, hsym, by omega, hr⟩

theorem mergeAt_length (l : List Bytes) (a b : Bytes) (r : List Bytes) :
    mergeAt (l ++ a :: b :: r) l.length = l ++ (a ++ b) :: r := by
  unfold mergeAt
  have hdrop : (l ++ a :: b :: r).drop (l.length + 2) = r := by
    rw [← List.drop_drop, List.drop_left]
    rfl
  rw [List.take_left, hdrop]
  simp [List.getD_eq_getElem?_getD]

theorem mergeLoop_done :
    ∀ (fuel : Nat) (sym : List Bytes), sym.length ≤ fuel → bestMerge v (mergeLoop v fuel sym) = none := by
  intro fuel
  induction fuel with
  | zero =>
    intro sym hlen
    rw [List.eq_nil_of_length_eq_zero (Nat.le_zero.mp hlen)]
    rfl
  | succ fuel ih =>
    intro sym hlen
    unfold mergeLoop
    cases hbest : bestMerge v sym with
    | none => exact hbest
    | some k =>
      dsimp only
      obtain ⟨l, a, b, r, rfl, rfl, -⟩ := bestMerge_eq_some hbest
      rw [mergeAt_length]
      apply ih
      simp only [List.length_append, List.length_cons] at hlen ⊢
      omega

/-- **The loop of merges ends**: no pair of the symbols that are left has a rank. -/
theorem mergeSymbols_done (v : Vocab) (sym : List Bytes) : bestMerge v (mergeSymbols v sym) = none :=
  mergeLoop_done sym.length sym (Nat.le_refl _)

/-! ### The text of a piece -/

/-- The symbols are tokens, and encode the parts of a piece. -/
def Covers (tokens : List Bytes) (piece : Bytes) (sym : List Bytes) : Prop :=
  ∃ parts : List Bytes, sym = parts.map byteEncode ∧ parts.flatten = piece ∧ ∀ x ∈ sym, x ∈ tokens

/-- A merge joins two parts. -/
theorem Covers.mergeAt (h : vocabLoad tokens merges = some v) (hc : Complete tokens merges) {piece : Bytes}
    (hcov : Covers tokens piece sym) {k : Nat} (hbest : bestMerge v sym = some k) :
    Covers tokens piece (mergeAt sym k) := by
  obtain ⟨l, a, b, r, rfl, rfl, hr⟩ := bestMerge_eq_some hbest
  obtain ⟨parts, hsym, hflat, hmem⟩ := hcov
  -- the parts behind the pair and around it
  obtain ⟨pl, rest, rfl, rfl, hrest⟩ := List.map_eq_append_iff.mp hsym.symm
  obtain ⟨pa, rest', rfl, rfl, hrest'⟩ := List.map_eq_cons_iff.mp hrest
  obtain ⟨pb, pr, rfl, rfl, rfl⟩ := List.map_eq_cons_iff.mp hrest'
  rw [mergeAt_length]
  refine ⟨pl ++ (pa ++ pb) :: pr, ?_, ?_, ?_⟩
  · simp [byteEncode_append]
  · rw [← hflat]
    simp
  · intro x hx
    simp only [List.mem_append, List.mem_cons] at hx
    rcases hx with hx | rfl | hx
    · exact hmem x (by simp [hx])
    · exact hc.merges _ _ (mem_of_bpeRank h hr) (not_mem_byteEncode pa).1 (not_mem_byteEncode pb).1
    · exact hmem x (by simp [hx])

theorem Covers.mergeLoop (h : vocabLoad tokens merges = some v) (hc : Complete tokens merges)
    {piece : Bytes} : ∀ (fuel : Nat) (sym : List Bytes), Covers tokens piece sym →
      Covers tokens piece (mergeLoop v fuel sym) := by
  intro fuel
  induction fuel with
  | zero => exact fun sym hcov => hcov
  | succ fuel ih =>
    intro sym hcov
    unfold Tokenizer.mergeLoop
    cases hbest : bestMerge v sym with
    | none   => exact hcov
    | some k => exact ih _ (hcov.mergeAt h hc hbest)

theorem covers_splitSymbols (hc : Complete tokens merges) (piece : Bytes) :
    Covers tokens piece (splitSymbols (byteEncode piece)) := by
  rw [splitSymbols_byteEncode]
  refine ⟨piece.map fun b => [b], ?_, ?_, ?_⟩
  · rw [List.map_map]
    apply List.map_congr_left
    intro b _
    exact (List.append_nil _).symm
  · induction piece with
    | nil => rfl
    | cons b piece ih => rw [List.map_cons, List.flatten_cons, ih, List.singleton_append]
  · intro x hx
    obtain ⟨b, -, rfl⟩ := List.mem_map.mp hx
    exact hc.bytes b

/-- An encoded text is no special token. -/
theorem not_literalSpecial_byteEncode (s : Bytes) : vocabTokenIsLiteralSpecial (byteEncode s) = false := by
  unfold vocabTokenIsLiteralSpecial
  rw [List.any_eq_false]
  intro i _ hbar
  have hmem : (0xef : UInt8) ∈ ((byteEncode s).drop i).take bar.length := by
    rw [of_decide_eq_true hbar]
    exact List.mem_cons_self
  exact (not_mem_byteEncode s).2 (List.mem_of_mem_drop (List.mem_of_mem_take hmem))

/-- **The text of a token** that encodes a part of a piece is the part. -/
theorem tokenText_emitSymbol (h : vocabLoad tokens merges = some v) (hs : byteEncode s ∈ tokens) :
    (emitSymbol v (byteEncode s)).flatMap (tokenText v) = s := by
  obtain ⟨token, hl⟩ := lookup_of_mem h hs
  obtain ⟨hpos, hlt, htoken⟩ := token_of_lookup h hl
  unfold emitSymbol
  rw [hl]
  dsimp only
  rw [List.flatMap_cons, List.flatMap_nil, List.append_nil]
  unfold tokenText
  rw [if_neg (by omega)]
  dsimp only
  rw [htoken, not_literalSpecial_byteEncode, if_neg Bool.false_ne_true, decodeText_byteEncode]

/-- **The texts of the tokens** of a piece make up the piece. -/
theorem tokenText_bpeEmitPiece (h : vocabLoad tokens merges = some v) (hc : Complete tokens merges)
    (piece : Bytes) : (bpeEmitPiece v piece).flatMap (tokenText v) = piece := by
  unfold bpeEmitPiece mergeSymbols
  obtain ⟨parts, hsym, hflat, hmem⟩ :=
    Covers.mergeLoop h hc _ _ (covers_splitSymbols hc piece)
  rw [hsym] at hmem ⊢
  rw [← hflat, List.flatMap_assoc]
  clear hsym hflat
  induction parts with
  | nil => rfl
  | cons part parts ih =>
    rw [List.map_cons, List.flatMap_cons, List.flatten_cons,
      tokenText_emitSymbol h (hmem _ List.mem_cons_self),
      ih fun x hx => hmem x (List.mem_cons_of_mem _ hx)]

end DS4.Tokenizer
