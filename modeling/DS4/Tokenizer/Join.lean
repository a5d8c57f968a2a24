import DS4.Tokenizer.Pretokenize

namespace DS4.Tokenizer

/-!
# Tokenizer — the pieces of joined texts

A piece is chosen from the text behind it too.  In an ASCII text that does not end with a space it is chosen
from the text alone, where something is left behind it: then it is a piece of every longer text.

* `pieces_of_rest` — the first piece, and the others.
* `pieceRest_append`, `afterPiece_append` — a piece of a longer text.
* `pieces_append` — all pieces but the last one stay when a text is joined.
-/

open DS4.Lib

variable {s t p r x y : Bytes} {c d : UInt8} {fuel : Nat}

/-! ### All pieces -/

theorem piecesLoop_fuel (h : s.length ≤ fuel) : piecesLoop fuel s = piecesLoop s.length s := by
  induction hn : s.length using Nat.strongRecOn generalizing s fuel with
  | _ n ih =>
    by_cases hs : s = []
    · subst hs
      cases fuel <;> subst hn <;> rfl
    · have hlt := afterPiece_length hs
      have hpos := List.length_pos_of_ne_nil hs
      obtain ⟨fuel, rfl⟩ : ∃ k, fuel = k + 1 := ⟨fuel - 1, by omega⟩
      obtain ⟨m, rfl⟩ : ∃ m, n = m + 1 := ⟨n - 1, by omega⟩
      rw [piecesLoop, piecesLoop, if_neg hs, if_neg hs]
      have h₁ := @ih _ (by omega) (afterPiece s) fuel (by omega) rfl
      have h₂ := @ih _ (by omega) (afterPiece s) m (by omega) rfl
      rw [h₁, h₂]

theorem pieces_nil : pieces [] = [] := rfl

/-- **The first piece**, and the others. -/
theorem pieces_of_after (hnul : (0 : UInt8) ∉ p ++ r) (hp : p ≠ []) (h : afterPiece (p ++ r) = r) :
    pieces (p ++ r) = p :: pieces r := by
  have hnul' : (0 : UInt8) ∉ r := fun hr => hnul (List.mem_append_right p hr)
  have hlen : (p ++ r).length = ((p ++ r).length - 1) + 1 := by
    have := List.length_pos_of_ne_nil hp
    rw [List.length_append]
    omega
  have hle : r.length ≤ (p ++ r).length - 1 := by
    have := List.length_pos_of_ne_nil hp
    rw [List.length_append]
    omega
  rw [pieces, pieces, cstr_eq_self hnul, cstr_eq_self hnul', hlen, piecesLoop, h,
    if_neg (List.append_ne_nil_of_left_ne_nil hp r), piecesLoop_fuel hle]
  rw [List.length_append, Nat.add_sub_cancel, List.take_left]

theorem pieces_first (hnul : (0 : UInt8) ∉ s) (hs : s ≠ []) :
    ∃ p, p ++ afterPiece s = s ∧ p ≠ [] ∧ pieces s = p :: pieces (afterPiece s) := by
  obtain ⟨p, hp⟩ := afterPiece_suffix s
  have hpne : p ≠ [] := by
    rintro rfl
    have hlt := afterPiece_length hs
    rw [List.nil_append] at hp
    rw [hp] at hlt
    exact absurd hlt (Nat.lt_irrefl _)
  refine ⟨p, hp, hpne, ?_⟩
  have hcons := @pieces_of_after p (afterPiece s) (by rwa [hp]) hpne (by rw [hp])
  rwa [hp] at hcons

theorem pieces_of_rest (hnul : (0 : UInt8) ∉ p ++ r) (hp : p ≠ []) (h : pieceRest (p ++ r) = r) :
    pieces (p ++ r) = p :: pieces r := by
  apply pieces_of_after hnul hp
  have hpos := List.length_pos_of_ne_nil hp
  rw [afterPiece, h, if_neg]
  rw [List.length_append]
  omega

/-! ### ASCII texts -/

/-- All bytes of a text are ASCII. -/
def Ascii (s : Bytes) : Prop := ∀ c ∈ s, c < 0x80

instance : Decidable (Ascii s) := List.decidableBAll _ s

theorem Ascii.tail (h : Ascii (c :: s)) : Ascii s := fun d hd => h d (List.mem_cons_of_mem c hd)

theorem Ascii.of_suffix (h : Ascii s) (ht : t <:+ s) : Ascii t := fun d hd => h d (ht.subset hd)

theorem joyaiLetterLikeAt_cons (hc : c < 0x80) (s : Bytes) : joyaiLetterLikeAt (c :: s) = asciiAlpha c := if_pos hc

theorem joyaiCjkAt_cons (hc : c < 0x80) (s : Bytes) : joyaiCjkAt (c :: s) = false := if_pos hc

theorem nextUtf8Char_cons (hc : c < 0x80) (s : Bytes) : nextUtf8Char (c :: s) = s := by
  have hlen : ∀ c : UInt8, c < 0x80 → utf8LenFromFirstByte c = 1 := forall_uint8 (by decide +kernel)
  have hone : utf8CharLen (c :: s) = 1 := by
    unfold utf8CharLen
    rw [List.getD_cons_zero, hlen c hc]
    dsimp only
    split <;> rfl
  rw [nextUtf8Char, hone]
  rfl

/-- **Letters** of an ASCII text, which has one more byte behind them. -/
theorem charsWhile_letters (hs : Ascii s) (hfuel : s.length ≤ fuel) :
    charsWhile joyaiLetterLikeAt fuel s = s.dropWhile asciiAlpha ∧
      (s.dropWhile asciiAlpha ≠ [] →
        charsWhile joyaiLetterLikeAt fuel (s ++ y) = s.dropWhile asciiAlpha ++ y) := by
  induction s generalizing fuel with
  | nil =>
    refine ⟨?_, fun h => absurd rfl h⟩
    cases fuel <;> rfl
  | cons c s ih =>
    obtain ⟨fuel, rfl⟩ : ∃ k, fuel = k + 1 := ⟨fuel - 1, by rw [List.length_cons] at hfuel; omega⟩
    have hc := hs c List.mem_cons_self
    obtain ⟨ih₁, ih₂⟩ := ih hs.tail (Nat.le_of_succ_le_succ hfuel)
    rw [List.dropWhile_cons, List.cons_append, charsWhile, charsWhile, joyaiLetterLikeAt_cons hc,
      joyaiLetterLikeAt_cons hc, nextUtf8Char_cons hc, nextUtf8Char_cons hc]
    by_cases ha : asciiAlpha c = true
    · have hgo : ∀ z, c :: z ≠ [] ∧ asciiAlpha c = true := fun z => ⟨List.cons_ne_nil c z, ha⟩
      rw [if_pos ha, if_pos (hgo s), if_pos (hgo (s ++ y))]
      exact ⟨ih₁, ih₂⟩
    · have hstop : ∀ z, ¬ (c :: z ≠ [] ∧ asciiAlpha c = true) := fun z h => ha h.2
      rw [if_neg ha, if_neg (hstop s), if_neg (hstop (s ++ y))]
      exact ⟨rfl, fun _ => rfl⟩

theorem dropWhile_append_of_ne_nil {q : UInt8 → Bool} (h : s.dropWhile q ≠ []) :
    (s ++ y).dropWhile q = s.dropWhile q ++ y := by
  rw [List.dropWhile_append, if_neg]
  rwa [List.isEmpty_iff]

theorem dropWhile_dropWhile_append {q q' : UInt8 → Bool} (h : (s.dropWhile q).dropWhile q' ≠ []) :
    ((s ++ y).dropWhile q).dropWhile q' = (s.dropWhile q).dropWhile q' ++ y := by
  have hne : s.dropWhile q ≠ [] := fun hnil => h (by rw [hnil]; rfl)
  rw [dropWhile_append_of_ne_nil hne, dropWhile_append_of_ne_nil h]

theorem digits_append {n : Nat} (h : digits n s ≠ []) : digits n (s ++ y) = digits n s ++ y := by
  induction n generalizing s with
  | zero => rfl
  | succ n ih =>
    cases s with
    | nil => exact absurd rfl h
    | cons c s =>
      rw [List.cons_append]
      unfold digits at h ⊢
      by_cases hc : asciiDigit c = true
      · rw [if_pos hc] at h
        rw [if_pos hc, if_pos hc]
        exact ih h
      · rw [if_neg hc, if_neg hc, List.cons_append]

/-! ### Spaces -/

/-- **The loop over spaces** stops in a text that has another byte. -/
theorem spaceLoop_append (h : ∃ e ∈ s, asciiSpace e = false) (n last : Nat) (hlast : last ≤ n) :
    spaceLoop (s ++ y) n last = spaceLoop s n last ∧ (spaceLoop s n last).1 < n + s.length ∧
      (spaceLoop s n last).2 ≤ (spaceLoop s n last).1 := by
  induction s generalizing n last with
  | nil =>
    obtain ⟨e, he, -⟩ := h
    cases he
  | cons c s ih =>
    rw [List.cons_append, spaceLoop, spaceLoop, List.length_cons]
    by_cases hc : asciiSpace c = true
    · have htail : ∃ e ∈ s, asciiSpace e = false := by
        obtain ⟨e, he, hspace⟩ := h
        rcases List.mem_cons.mp he with rfl | he
        · rw [hc] at hspace
          cases hspace
        · exact ⟨e, he, hspace⟩
      rw [if_pos hc, if_pos hc]
      obtain ⟨h₁, h₂, h₃⟩ := ih htail (n + 1) (if asciiNewline c then n + 1 else last) (by split <;> omega)
      exact ⟨h₁, by omega, h₃⟩
    · rw [if_neg hc, if_neg hc]
      exact ⟨rfl, by dsimp only; omega, hlast⟩

theorem spaceRest_append (hs : Ascii s) (h : ∃ e ∈ s, asciiSpace e = false) : spaceRest (s ++ y) = spaceRest s ++ y := by
  obtain ⟨hloop, hlt, hle⟩ := @spaceLoop_append s y h 0 0 (Nat.le_refl 0)
  rw [spaceRest, spaceRest, hloop]
  generalize spaceLoop s 0 0 = stop at hlt hle
  obtain ⟨n, last⟩ := stop
  dsimp only at hlt hle ⊢
  rw [Nat.zero_add] at hlt
  have hdrop : ∀ {k}, k ≤ n → (s ++ y).drop k = s.drop k ++ y := fun hk =>
    List.drop_append_of_le_length (by omega)
  -- the byte at which the loop stops is one of the text
  obtain ⟨e, t, het⟩ := List.exists_cons_of_ne_nil (List.drop_eq_nil_iff.not.mpr (Nat.not_le.mpr hlt))
  have he : e < 0x80 := hs e (List.mem_of_mem_drop (by rw [het]; exact List.mem_cons_self))
  have hlt' : n < (s ++ y).length := by
    rw [List.length_append]
    omega
  rw [hdrop (Nat.le_refl n), hdrop hle, hdrop (Nat.sub_le n 1), het, List.cons_append, joyaiLetterLikeAt_cons he,
    joyaiLetterLikeAt_cons he, List.getD_cons_zero, List.getD_cons_zero]
  simp only [hlt, hlt', true_and]
  split_ifs
  · rfl
  · rfl
  · rfl

/-! ### One piece -/

theorem pieceRest_single (hc : c < 0x80) : pieceRest [c] = [] := by
  have h : ∀ c : UInt8, c < 0x80 → pieceRest [c] = [] := forall_uint8 (by decide +kernel)
  exact h c hc

/-- **A piece** of an ASCII text, when something is left behind it, is a piece of every longer text. -/
theorem pieceRest_append (hs : Ascii s) (hspace : ∃ e ∈ s, asciiSpace e = false) (h : pieceRest s ≠ []) :
    pieceRest (s ++ y) = pieceRest s ++ y := by
  rcases s with _ | ⟨c, _ | ⟨d, s⟩⟩
  · exact absurd rfl h
  · exact absurd (pieceRest_single (hs c List.mem_cons_self)) h
  have hc := hs c List.mem_cons_self
  have hd := hs d (List.mem_cons_of_mem c List.mem_cons_self)
  have hlen : ∀ z : Bytes, 1 < (c :: d :: z).length := fun z => by
    rw [List.length_cons, List.length_cons]
    omega
  -- runs of letters, of the text and behind its first byte
  have hrun : ∀ {t}, Ascii t → joyaiConsumeLetters t ≠ [] → joyaiConsumeLetters (t ++ y) = joyaiConsumeLetters t ++ y := by
    intro t ht hne
    have hle : t.length ≤ (t ++ y).length := by
      rw [List.length_append]
      omega
    have hshort : joyaiConsumeLetters t = t.dropWhile asciiAlpha :=
      (@charsWhile_letters t y t.length ht (Nat.le_refl _)).1
    rw [hshort] at hne ⊢
    exact (charsWhile_letters ht hle).2 hne
  have htail : Ascii (d :: s) := hs.tail
  have hfirst : ∀ z : Bytes, joyaiCjkAt (c :: d :: z) = false ∧ joyaiLetterLikeAt (c :: d :: z) = asciiAlpha c ∧
      joyaiLetterLikeAt ((c :: d :: z).drop 1) = asciiAlpha d ∧ (c :: d :: z).getD 0 0 = c ∧
      (c :: d :: z).getD 1 0 = d := fun z =>
    ⟨joyaiCjkAt_cons hc _, joyaiLetterLikeAt_cons hc _, joyaiLetterLikeAt_cons hd z, rfl, rfl⟩
  obtain ⟨h₁, h₂, h₃, h₄, h₅⟩ := hfirst s
  obtain ⟨h₁', h₂', h₃', h₄', h₅'⟩ := hfirst (s ++ y)
  have hdrop : ∀ z : Bytes, (c :: d :: z).drop 1 = d :: z := fun _ => rfl
  have hlong := hlen s
  have hlong' := hlen (s ++ y)
  rw [List.cons_append, List.cons_append]
  unfold pieceRest at h ⊢
  dsimp only at h ⊢
  rw [h₄, h₅, h₁, h₂, h₃] at h
  rw [h₄', h₅', h₁', h₂', h₃', h₄, h₅, h₁, h₂, h₃]
  simp only [hlong, hlong', hdrop, true_and, if_false, Bool.false_eq_true] at h ⊢
  -- both texts take the same branch
  split_ifs at h ⊢
  · exact digits_append h
  · exact dropWhile_append_of_ne_nil h
  · exact hrun hs h
  · exact hrun htail h
  · exact dropWhile_dropWhile_append h
  · exact dropWhile_dropWhile_append h
  · exact spaceRest_append hs hspace
  · rw [nextUtf8Char_cons hc, nextUtf8Char_cons hc]
    rfl

theorem afterPiece_append (hs : Ascii s) (hspace : ∃ e ∈ s, asciiSpace e = false) (h : afterPiece s ≠ []) :
    afterPiece (s ++ y) = afterPiece s ++ y := by
  have hne : pieceRest s ≠ [] := by
    intro hnil
    have hnext : nextUtf8Char [] = [] := List.drop_nil
    rw [afterPiece, hnil, hnext] at h
    exact h (ite_self [])
  have hrest := pieceRest_append (y := y) hs hspace hne
  obtain ⟨c, t, hct⟩ := List.exists_cons_of_ne_nil hne
  have hc : c < 0x80 := hs.of_suffix (pieceRest_suffix s) c (by rw [hct]; exact List.mem_cons_self)
  rw [afterPiece, afterPiece, hrest, List.length_append, List.length_append]
  by_cases hlen : (pieceRest s).length = s.length
  · rw [if_pos (by rw [hlen]), if_pos hlen, hct, List.cons_append, nextUtf8Char_cons hc, nextUtf8Char_cons hc]
  · rw [if_neg (by omega), if_neg hlen]

/-! ### Joined texts -/

/-- **All pieces but the last one** of an ASCII text that does not end with a space stay when it is joined with
    another text. -/
theorem pieces_append (hs : Ascii s) (hend : ∀ r, r <:+ s → r ≠ [] → ∃ e ∈ r, asciiSpace e = false)
    (hnul : (0 : UInt8) ∉ s ++ y) {ps : List Bytes} {z : Bytes} (h : pieces s = ps ++ [z]) :
    pieces (s ++ y) = ps ++ pieces (z ++ y) := by
  induction ps generalizing s with
  | nil =>
    -- the only piece is the whole text
    have hnul' : (0 : UInt8) ∉ s := fun hz => hnul (List.mem_append_left y hz)
    have hflat := pieces_flatten s
    rw [h, cstr_eq_self hnul', List.nil_append, List.flatten_singleton] at hflat
    rw [hflat, List.nil_append]
  | cons q ps ih =>
    have hnul' : (0 : UInt8) ∉ s := fun hz => hnul (List.mem_append_left y hz)
    have hne : s ≠ [] := by
      rintro rfl
      cases h
    obtain ⟨p, hsplit, hp, hpieces⟩ := pieces_first hnul' hne
    rw [hpieces, List.cons_append] at h
    obtain ⟨rfl, htail⟩ := List.cons.inj h
    have hafter : afterPiece s ≠ [] := by
      intro hnil
      rw [hnil, pieces_nil] at htail
      exact absurd htail.symm (List.append_ne_nil_of_right_ne_nil ps (List.cons_ne_nil z []))
    have hsuffix := afterPiece_suffix s
    have hlong : s ++ y = p ++ (afterPiece s ++ y) := by rw [← List.append_assoc, hsplit]
    have hrest : pieces (afterPiece s ++ y) = ps ++ pieces (z ++ y) := by
      apply ih (hs.of_suffix hsuffix) (fun r hr => hend r (hr.trans hsuffix)) _ htail
      rw [hlong] at hnul
      exact fun hz => hnul (List.mem_append_right p hz)
    rw [hlong, List.cons_append, ← hrest]
    apply pieces_of_after (by rwa [← hlong]) hp
    rw [← hlong]
    exact afterPiece_append hs (hend s List.suffix_rfl hne) hafter

end DS4.Tokenizer
