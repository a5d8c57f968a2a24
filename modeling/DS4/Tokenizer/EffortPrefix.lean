import DS4.Tokenizer.TextTokens
import DS4.Tokenizer.Join
import DS4.Server.Prompt
import Mathlib.Data.List.TakeWhile

namespace DS4.Tokenizer

/-!
# Tokenizer — the prefix for the most effort

The prefix ends with a point and two newlines, which are one piece.  Newlines that follow join that piece; any
other text does not change the pieces of the prefix.

* `bpe_effort` — the tokens of a text behind the prefix.
* `bpe_effort_append` — the prefix and a text that does not start with a newline are tokenized apart.
* `exists_bpe_effort_ne` — for a text that starts with one, some vocabulary tells them apart.
-/

open DS4.Lib
open Server (thinkMaxPrefix)

/-! ### The prefix -/

/-- A literal of many characters is decided from the list of them. -/
theorem of_lit {P : Bytes → Prop} (l : List Char) (h : P (l.flatMap String.utf8EncodeChar)) :
    P (Server.lit (String.ofList l)) := by
  rw [Server.lit, String.toList_ofList]
  exact h

/-- ASCII bytes without NUL and `<`, whose last piece but for two newlines is a point. -/
structure PointEnd (s : Bytes) : Prop where
  bytes : ∀ c ∈ s, c < 0x80 ∧ c ≠ 0x3c ∧ c ≠ 0
  ends  : s = s.dropLast.dropLast ++ [0x0a, 0x0a] ∧ s.dropLast.dropLast.getLast? = some 0x2e
  point : (pieces s.dropLast.dropLast).getLast? = some [0x2e]

instance (s : Bytes) : Decidable (PointEnd s) :=
  -- the bytes are those of the list, not all 256
  haveI : Decidable (∀ c ∈ s, c < 0x80 ∧ c ≠ 0x3c ∧ c ≠ 0) := List.decidableBAll _ s
  decidable_of_iff
    ((∀ c ∈ s, c < 0x80 ∧ c ≠ 0x3c ∧ c ≠ 0) ∧
      (s = s.dropLast.dropLast ++ [0x0a, 0x0a] ∧ s.dropLast.dropLast.getLast? = some 0x2e) ∧
      (pieces s.dropLast.dropLast).getLast? = some [0x2e])
    ⟨fun h => ⟨h.1, h.2.1, h.2.2⟩, fun h => ⟨h.bytes, h.ends, h.point⟩⟩

set_option maxRecDepth 4096 in
theorem pointEnd_thinkMaxPrefix : PointEnd thinkMaxPrefix := @of_lit PointEnd _ (by decide +kernel)

theorem thinkMaxPrefix_bytes : ∀ c ∈ thinkMaxPrefix, (c ≠ 0x3c ∧ c ≠ 0xef) ∧ c ≠ 0 := by
  intro c hc
  obtain ⟨hascii, hbracket, hnul⟩ := (pointEnd_thinkMaxPrefix).bytes c hc
  refine ⟨⟨hbracket, ?_⟩, hnul⟩
  rintro rfl
  exact absurd hascii (by decide)

theorem PointEnd.ascii {s : Bytes} (h : PointEnd s) : Ascii s.dropLast.dropLast := fun c hc =>
  (h.bytes c (List.mem_of_mem_dropLast (List.mem_of_mem_dropLast hc))).1

variable {v : Vocab} {s : Bytes} {c : UInt8}

/-- A point, two newlines and the newlines behind them are one piece. -/
theorem pieceRest_point (s : Bytes) : pieceRest (0x2e :: 0x0a :: 0x0a :: s) = s.dropWhile asciiNewline := by
  have hascii : (0x2e : UInt8) < 0x80 := by decide
  have hbytes : asciiDigit 0x2e = false ∧ asciiAlpha 0x0a = false ∧ asciiAlpha 0x2e = false ∧
      joyaiAsciiPunctSymbol 0x2e = true ∧ joyaiAsciiPunctSymbol 0x0a = false ∧ asciiNewline 0x0a = true := by decide
  obtain ⟨h₁, h₂, h₃, h₄, h₅, h₆⟩ := hbytes
  unfold pieceRest
  rw [List.getD_cons_zero, List.getD_cons_succ, List.getD_cons_zero, joyaiCjkAt_cons hascii,
    joyaiLetterLikeAt_cons hascii]
  simp [h₁, h₂, h₃, h₄, h₅, h₆]

/-- **The pieces** of a text behind such a prefix. -/
theorem pieces_pointEnd {x : Bytes} (hpoint : PointEnd x) : ∃ ps, ∀ s, (0 : UInt8) ∉ s → pieces (x ++ s) =
    ps ++ (0x2e :: 0x0a :: 0x0a :: s.takeWhile asciiNewline) :: pieces (s.dropWhile asciiNewline) := by
  obtain ⟨ps, hps⟩ := List.getLast?_eq_some_iff.mp hpoint.point
  refine ⟨ps, fun s hs => ?_⟩
  have hnul : (0 : UInt8) ∉ x ++ s := by
    intro hz
    rcases List.mem_append.mp hz with hz | hz
    · exact (hpoint.bytes 0 hz).2.2 rfl
    · exact hs hz
  have hend : ∀ r, r <:+ x.dropLast.dropLast → r ≠ [] → ∃ e ∈ r, asciiSpace e = false := by
    rintro r ⟨l, hl⟩ hr
    have hlast := hpoint.ends.2
    rw [← hl, List.getLast?_append_of_ne_nil l hr] at hlast
    exact ⟨0x2e, List.mem_of_getLast? hlast, by decide⟩
  have hsplit : x ++ s = x.dropLast.dropLast ++ ([0x0a, 0x0a] ++ s) := by
    conv_lhs => rw [hpoint.ends.1]
    rw [List.append_assoc]
  have htext : [0x2e] ++ ([0x0a, 0x0a] ++ s) =
      (0x2e :: 0x0a :: 0x0a :: s.takeWhile asciiNewline) ++ s.dropWhile asciiNewline := by
    simp only [List.cons_append, List.nil_append, List.takeWhile_append_dropWhile]
  have hnul' : (0 : UInt8) ∉ [0x2e] ++ ([0x0a, 0x0a] ++ s) := by simpa using hs
  rw [hsplit] at hnul ⊢
  rw [pieces_append hpoint.ascii hend hnul hps]
  rw [htext] at hnul' ⊢
  congr 1
  apply pieces_of_rest hnul' (List.cons_ne_nil _ _)
  rw [← htext]
  exact pieceRest_point s

/-- **The tokens** of a text behind the prefix. -/
theorem bpe_effort (v : Vocab) : ∃ ids, ∀ s, (0 : UInt8) ∉ s → bpeTokenizeText v (thinkMaxPrefix ++ s) =
    ids ++ (bpeEmitPiece v (0x2e :: 0x0a :: 0x0a :: s.takeWhile asciiNewline) ++
      bpeTokenizeText v (s.dropWhile asciiNewline)) := by
  obtain ⟨ps, hps⟩ := pieces_pointEnd pointEnd_thinkMaxPrefix
  refine ⟨ps.flatMap (bpeEmitPiece v), fun s hs => ?_⟩
  rw [bpeTokenizeText, hps s hs, List.flatMap_append, List.flatMap_cons]
  rfl

/-- A text starts with a newline. -/
def StartsNewline (s : Bytes) : Prop := ∃ c ∈ s.head?, asciiNewline c = true

/-- **The prefix and a text** that does not start with a newline are tokenized apart. -/
theorem bpe_effort_append (v : Vocab) (hs : (0 : UInt8) ∉ s) (h : ¬ StartsNewline s) :
    bpeTokenizeText v (thinkMaxPrefix ++ s) = bpeTokenizeText v thinkMaxPrefix ++ bpeTokenizeText v s := by
  obtain ⟨ids, hids⟩ := bpe_effort v
  have halone := hids [] List.not_mem_nil
  have hfirst : s.takeWhile asciiNewline = [] ∧ s.dropWhile asciiNewline = s := by
    cases s with
    | nil => exact ⟨rfl, rfl⟩
    | cons c s =>
      have hc : ¬ asciiNewline c = true := fun hc => h ⟨c, rfl, hc⟩
      rw [List.takeWhile_cons, List.dropWhile_cons, if_neg hc, if_neg hc]
      exact ⟨rfl, rfl⟩
  have hnil : bpeTokenizeText v [] = [] := rfl
  rw [List.append_nil, List.takeWhile_nil, List.dropWhile_nil, hnil, List.append_nil] at halone
  rw [hids s hs, halone, hfirst.1, hfirst.2, List.append_assoc]

/-! ### A vocabulary that tells them apart -/

/-- The symbols of a point and of a newline. -/
def pointSymbol : Bytes := symbol 0x2e
def newlineSymbol : Bytes := symbol 0x0a

/-- A point and a newline are merged first, and then a newline and the byte `c`. -/
def joinMerges (c : UInt8) : List Bytes :=
  [pointSymbol ++ 0x20 :: newlineSymbol, newlineSymbol ++ 0x20 :: symbol c]

/-- A token for each byte, for each marker and for the results of the two merges. -/
def joinTokens (c : UInt8) : List Bytes :=
  (List.range 256).map (fun b => symbol (UInt8.ofNat b)) ++
    [BOS, EOS, USER, ASSISTANT, THINK_START, THINK_END, DSML, pointSymbol ++ newlineSymbol,
      newlineSymbol ++ symbol c]

theorem exists_vocabLoad_join (c : UInt8) : ∃ v, vocabLoad (joinTokens c) (joinMerges c) = some v := by
  apply exists_vocabLoad
  · simp [joinTokens]
  · intro m hm
    apply List.mem_append_right
    exact List.mem_append_left [pointSymbol ++ newlineSymbol, newlineSymbol ++ symbol c] hm

/-- **The ranks.** -/
theorem bpeRank_join (h : vocabLoad (joinTokens c) (joinMerges c) = some v) (a b : Bytes) :
    bpeRank v a b = if a ++ 0x20 :: b = newlineSymbol ++ 0x20 :: symbol c then 1
      else if a ++ 0x20 :: b = pointSymbol ++ 0x20 :: newlineSymbol then 0 else -1 := by
  obtain ⟨-, -, -, hranks, -⟩ := vocabLoad_eq h
  have hbmod : Int.bmod (0 : Nat) 0x100000000 = 0 ∧ Int.bmod ((0 + 1 : Nat) : Int) 0x100000000 = 1 := by decide
  unfold bpeRank
  rw [hranks, joinMerges, tablePutAll, tablePutAll, tablePutAll, hbmod.1, hbmod.2]
  split_ifs with h₁ h₂
  · rw [h₁, AList.lookup_insert]
    rfl
  · rw [AList.lookup_insert_ne h₁, h₂, AList.lookup_insert]
    rfl
  · rw [AList.lookup_insert_ne h₁, AList.lookup_insert_ne h₂, AList.lookup_empty]
    rfl

/-- A pair that is the best one so far stays it when no other one has a lower rank. -/
theorem bestLoop_keep {best : Option Nat × Int} {sym : List Bytes}
    (h : ∀ a ∈ sym, ∀ b ∈ sym, ¬ (0 ≤ bpeRank v a b ∧ bpeRank v a b < best.2)) (i : Nat) :
    bestLoop v i sym best = best.1 := by
  induction sym generalizing i with
  | nil => rfl
  | cons a sym ih =>
    cases sym with
    | nil => rfl
    | cons b sym =>
      have hpair := h a List.mem_cons_self b (List.mem_cons_of_mem a List.mem_cons_self)
      rw [bestLoop, if_neg hpair]
      exact ih (fun x hx y hy => h x (List.mem_cons_of_mem a hx) y (List.mem_cons_of_mem a hy)) (i + 1)

/-- Two symbols at the start stay when neither is merged with what is behind it. -/
theorem mergeLoop_keep {a b : Bytes} (hab : bpeRank v a b < 0) (hb : ∀ x, bpeRank v b x < 0) (fuel : Nat)
    (sym : List Bytes) : ∃ sym', mergeLoop v fuel (a :: b :: sym) = a :: b :: sym' := by
  induction fuel generalizing sym with
  | zero => exact ⟨sym, rfl⟩
  | succ fuel ih =>
    rw [mergeLoop]
    cases hbest : bestMerge v (a :: b :: sym) with
    | none => exact ⟨sym, rfl⟩
    | some k =>
      dsimp only
      obtain ⟨l, x, y, r, hsym, rfl, hrank⟩ := bestMerge_eq_some hbest
      rcases l with _ | ⟨a', _ | ⟨b', l⟩⟩
      · obtain ⟨rfl, rfl, -⟩ : a = x ∧ b = y ∧ sym = r := by simpa using hsym
        omega
      · obtain ⟨-, rfl, -⟩ : a = a' ∧ b = x ∧ sym = y :: r := by simpa using hsym
        have := hb y
        omega
      · obtain ⟨rfl, rfl, rfl⟩ : a = a' ∧ b = b' ∧ sym = l ++ x :: y :: r := by simpa using hsym
        have hmerge := mergeAt_length (a :: b :: l) x y r
        rw [List.cons_append, List.cons_append] at hmerge
        rw [hmerge]
        exact ih _

/-- The symbols that the two merges are about. -/
theorem join_symbols : pointSymbol = [0x2e] ∧ newlineSymbol = [0xc4, 0x8a] ∧
    ∀ c, asciiNewline c = true → (symbol c).head? = some 0xc4 ∧ (symbol c).length = 2 := by
  refine ⟨by decide +kernel, by decide +kernel, ?_⟩
  exact forall_uint8 (by decide +kernel)

/-- **The first merge** joins the point and the first newline. -/
theorem bestMerge_point (h : vocabLoad (joinTokens c) (joinMerges c) = some v)
    (sym : List Bytes) : bestMerge v (pointSymbol :: newlineSymbol :: sym) = some 0 := by
  obtain ⟨hpoint, hnewline, hsymbols⟩ := join_symbols
  have hne : pointSymbol ++ 0x20 :: newlineSymbol ≠ newlineSymbol ++ 0x20 :: symbol c := by
    rw [hpoint, hnewline]
    simp
  have hrank : bpeRank v pointSymbol newlineSymbol = 0 := by rw [bpeRank_join h, if_neg hne, if_pos rfl]
  rw [bestMerge, bestLoop, hrank, if_pos (by decide)]
  exact bestLoop_keep (fun a _ b _ h => by dsimp only at h; omega) _

/-- A newline behind that point is not joined with it. -/
theorem bpeRank_pointed (h : vocabLoad (joinTokens c) (joinMerges c) = some v) (b : Bytes) :
    bpeRank v (pointSymbol ++ newlineSymbol) b = -1 := by
  obtain ⟨hpoint, hnewline, -⟩ := join_symbols
  rw [bpeRank_join h, hpoint, hnewline, if_neg, if_neg]
  · simp
  · simp

theorem bpeRank_joined (h : vocabLoad (joinTokens c) (joinMerges c) = some v) (hc : asciiNewline c = true)
    (b : Bytes) : bpeRank v (newlineSymbol ++ symbol c) b = -1 := by
  obtain ⟨hpoint, hnewline, hsymbols⟩ := join_symbols
  obtain ⟨x, y, hxy⟩ : ∃ x y, symbol c = [x, y] := List.length_eq_two.mp (hsymbols c hc).2
  have hx : x = 0xc4 := by
    have hhead := (hsymbols c hc).1
    rw [hxy] at hhead
    exact Option.some.inj hhead
  rw [bpeRank_join h, hpoint, hnewline, hxy, hx, if_neg, if_neg]
  · simp
  · simp

/-- **The second merge** joins the second newline and the byte behind it. -/
theorem bestMerge_newline (h : vocabLoad (joinTokens c) (joinMerges c) = some v) (hc : asciiNewline c = true)
    {cs : Bytes} (hcs : ∀ d ∈ cs, asciiNewline d = true) :
    bestMerge v ((pointSymbol ++ newlineSymbol) :: newlineSymbol :: symbol c :: cs.map symbol) = some 1 := by
  obtain ⟨hpoint, hnewline, hsymbols⟩ := join_symbols
  have hrank : bpeRank v newlineSymbol (symbol c) = 1 := by rw [bpeRank_join h, if_pos rfl]
  have hzero : bpeRank v (pointSymbol ++ newlineSymbol) newlineSymbol = -1 := bpeRank_pointed h _
  rw [bestMerge, bestLoop, hzero, if_neg (by decide), bestLoop, hrank, if_pos (by decide)]
  apply bestLoop_keep
  rintro a ha b - ⟨hpos, hlt⟩
  -- a pair of rank zero starts with a point
  have hhead : a.head? = some 0xc4 := by
    rcases List.mem_cons.mp ha with rfl | ha
    · exact (hsymbols c hc).1
    · obtain ⟨d, hd, rfl⟩ := List.mem_map.mp ha
      exact (hsymbols d (hcs d hd)).1
  obtain ⟨z, a, rfl⟩ : ∃ z y, a = z :: y := List.exists_cons_of_ne_nil fun hnil => by
    rw [hnil] at hhead
    cases hhead
  rw [bpeRank_join h, hpoint] at hpos hlt
  split_ifs at hpos hlt with h₁ h₂
  · exact absurd hlt (by decide)
  · rw [List.cons_append, List.cons_append, List.cons.injEq] at h₂
    rw [h₂.1] at hhead
    exact absurd (Option.some.inj hhead) (by decide)
  · exact absurd hpos (by decide)

theorem emitSymbol_of_mem {w : Bytes} (h : vocabLoad (joinTokens c) (joinMerges c) = some v) (hw : w ∈ joinTokens c) :
    ∃ token, v.tokenToId.lookup w = some token ∧ emitSymbol v w = [token] := by
  obtain ⟨token, htoken⟩ := lookup_of_mem h hw
  refine ⟨token, htoken, ?_⟩
  unfold emitSymbol
  rw [htoken]

/-- **The tokens** of a point and two newlines, alone and with the byte `c` behind them. -/
theorem bpeEmitPiece_join (h : vocabLoad (joinTokens c) (joinMerges c) = some v) (hc : asciiNewline c = true)
    {cs : Bytes} (hcs : ∀ d ∈ cs, asciiNewline d = true) :
    ∃ first alone joined more, bpeEmitPiece v [0x2e, 0x0a, 0x0a] = [first, alone] ∧
      bpeEmitPiece v (0x2e :: 0x0a :: 0x0a :: c :: cs) = first :: joined :: more ∧ alone ≠ joined := by
  have hmem : pointSymbol ++ newlineSymbol ∈ joinTokens c ∧ newlineSymbol ∈ joinTokens c ∧
      newlineSymbol ++ symbol c ∈ joinTokens c := by
    refine ⟨?_, List.mem_append_left _ ?_, ?_⟩
    · simp [joinTokens]
    · exact List.mem_map.mpr ⟨10, by decide, rfl⟩
    · simp [joinTokens]
  obtain ⟨first, hfirst, hfirst'⟩ := emitSymbol_of_mem h hmem.1
  obtain ⟨alone, halone, halone'⟩ := emitSymbol_of_mem h hmem.2.1
  obtain ⟨joined, hjoined, hjoined'⟩ := emitSymbol_of_mem h hmem.2.2
  have hpoint : ∀ sym, mergeAt (pointSymbol :: newlineSymbol :: sym) 0 = (pointSymbol ++ newlineSymbol) :: sym :=
    fun sym => mergeAt_length [] pointSymbol newlineSymbol sym
  have hpair : ∀ sym, mergeAt ((pointSymbol ++ newlineSymbol) :: newlineSymbol :: symbol c :: sym) 1 =
      (pointSymbol ++ newlineSymbol) :: (newlineSymbol ++ symbol c) :: sym :=
    fun sym => mergeAt_length [pointSymbol ++ newlineSymbol] newlineSymbol (symbol c) sym
  refine ⟨first, alone, joined, ?_⟩
  have hshort : mergeSymbols v [pointSymbol, newlineSymbol, newlineSymbol] =
      [pointSymbol ++ newlineSymbol, newlineSymbol] := by
    have hnone : bestMerge v [pointSymbol ++ newlineSymbol, newlineSymbol] = none := by
      rw [bestMerge, bestLoop, bpeRank_pointed h, if_neg (by decide)]
      rfl
    rw [mergeSymbols, List.length_cons, mergeLoop, bestMerge_point h]
    dsimp only
    rw [hpoint, List.length_cons, mergeLoop, hnone]
  obtain ⟨sym', hlong⟩ : ∃ sym', mergeSymbols v
      (pointSymbol :: newlineSymbol :: newlineSymbol :: symbol c :: cs.map symbol) =
      (pointSymbol ++ newlineSymbol) :: (newlineSymbol ++ symbol c) :: sym' := by
    rw [mergeSymbols, List.length_cons, mergeLoop, bestMerge_point h]
    dsimp only
    rw [hpoint, List.length_cons, mergeLoop, bestMerge_newline h hc hcs]
    dsimp only
    rw [hpair]
    apply mergeLoop_keep
    · rw [bpeRank_pointed h]
      decide
    · intro x
      rw [bpeRank_joined h hc]
      decide
  refine ⟨sym'.flatMap (emitSymbol v), ?_, ?_, ?_⟩
  · have hsym : splitSymbols (byteEncode [0x2e, 0x0a, 0x0a]) = [pointSymbol, newlineSymbol, newlineSymbol] :=
      splitSymbols_byteEncode _
    rw [bpeEmitPiece, hsym, hshort, List.flatMap_cons, List.flatMap_cons, List.flatMap_nil, hfirst', halone']
    rfl
  · have hsym : splitSymbols (byteEncode (0x2e :: 0x0a :: 0x0a :: c :: cs)) =
        pointSymbol :: newlineSymbol :: newlineSymbol :: symbol c :: cs.map symbol := splitSymbols_byteEncode _
    rw [bpeEmitPiece, hsym, hlong, List.flatMap_cons, List.flatMap_cons, hfirst', hjoined']
    rfl
  · rintro rfl
    have hsame := string_of_lookup h halone hjoined
    have hlen := congrArg List.length hsame
    rw [List.length_append, ((join_symbols).2.2 c hc).2] at hlen
    omega

/-- **For a text** that starts with a newline, some vocabulary tells the two ways apart. -/
theorem exists_bpe_effort_ne (hs : (0 : UInt8) ∉ s) (h : StartsNewline s) :
    ∃ v tokens merges, vocabLoad tokens merges = some v ∧
      bpeTokenizeText v (thinkMaxPrefix ++ s) ≠ bpeTokenizeText v thinkMaxPrefix ++ bpeTokenizeText v s := by
  obtain ⟨c, hhead, hc⟩ := h
  obtain ⟨r, rfl⟩ : ∃ r, s = c :: r := List.head?_eq_some_iff.mp hhead
  obtain ⟨v, hv⟩ := exists_vocabLoad_join c
  refine ⟨v, _, _, hv, ?_⟩
  have hcs : ∀ d ∈ r.takeWhile asciiNewline, asciiNewline d = true := fun _ hd => List.mem_takeWhile_imp hd
  obtain ⟨first, alone, joined, more, hshort, hlong, hne⟩ := bpeEmitPiece_join hv hc hcs
  obtain ⟨ids, hids⟩ := bpe_effort v
  have halone := hids [] List.not_mem_nil
  have hnil : bpeTokenizeText v [] = [] := rfl
  rw [List.append_nil, List.takeWhile_nil, List.dropWhile_nil, hnil, List.append_nil, hshort] at halone
  rw [hids _ hs, halone, List.takeWhile_cons, if_pos hc, hlong, List.append_assoc]
  intro heq
  have htail := List.append_cancel_left heq
  rw [List.cons_append, List.cons_append, List.cons_append, List.cons.injEq, List.cons_append, List.cons.injEq] at htail
  exact hne htail.2.1.symm

end DS4.Tokenizer
