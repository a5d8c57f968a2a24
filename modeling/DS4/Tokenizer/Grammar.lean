import DS4.Tokenizer.Rules

namespace DS4.Tokenizer

/-!
# Tokenizer — the code against the rules

The code works on bytes.  For a text of ASCII, CJK and kana characters each of its branches is one of
`branches`, so that its pieces are those of the patterns where no piece runs on.

* `enc` — a text as bytes; `put_cases` — the bytes of one character.
* `pieceRest_enc` — the branches of the code over bytes and over characters.
* `pretokenizer_follows_rules_iff` — **the exact condition** under which the pieces are those of the
  patterns.
-/

open DS4.Lib

/-- A text as bytes. -/
def enc (s : List Nat) : Bytes := s.flatMap utf8Put

/-- The code cuts the text into the pieces of the patterns; each of them has CJK and kana characters
    only, or none. -/
def FollowsRules (s : List Nat) : Prop :=
  pieces (enc s) = (rulePieces s).map enc ∧
    ∀ p ∈ pieces (enc s), ∃ q, p = enc q ∧ q ⊆ s ∧ Unmixed q

/-! ### One character -/

variable {c : Nat} {s r : List Nat}

theorem enc_cons (c : Nat) (s : List Nat) : enc (c :: s) = utf8Put c ++ enc s := rfl

theorem enc_append (s t : List Nat) : enc (s ++ t) = enc s ++ enc t := List.flatMap_append

theorem put_ascii (h : c < 0x80) : utf8Put c = [UInt8.ofNat c] := if_pos (Nat.le_of_lt_succ h)

/-- **A CJK or kana character** takes three bytes, and is read back from them. -/
theorem put_cjk (h : isCjk c) :
    ∃ b₀ b₁ b₂, utf8Put c = [b₀, b₁, b₂] ∧ ¬ b₀ < 0x80 ∧ b₀ &&& 0xe0 ≠ 0xc0 ∧ b₀ &&& 0xf0 = 0xe0 ∧
      b₁ ≠ 0 ∧ b₂ ≠ 0 ∧
      (b₀ &&& 0x0f).toNat <<< 12 ||| (b₁ &&& 0x3f).toNat <<< 6 ||| (b₂ &&& 0x3f).toNat = c := by
  have hrange : 0x3040 ≤ c ∧ c ≤ 0x9fa5 := by
    simp [isCjk, utf8IsCjkHiraKata] at h
    omega
  -- the three numbers that the bytes carry
  have hhigh : ∀ n < 16, ¬ UInt8.ofNat (0xe0 ||| n) < 0x80 ∧ UInt8.ofNat (0xe0 ||| n) &&& 0xe0 ≠ 0xc0 ∧
      UInt8.ofNat (0xe0 ||| n) &&& 0xf0 = 0xe0 ∧ (UInt8.ofNat (0xe0 ||| n) &&& 0x0f).toNat = n := by
    decide +kernel
  have hlow : ∀ n < 64, UInt8.ofNat (0x80 ||| n) ≠ 0 ∧
      (UInt8.ofNat (0x80 ||| n) &&& 0x3f).toNat = n := by
    decide +kernel
  have hand : ∀ n : Nat, n &&& 0x3f = n % 64 := fun n => Nat.and_two_pow_sub_one_eq_mod n 6
  have h₀ : c >>> 12 = c / 4096 := Nat.shiftRight_eq_div_pow c 12
  have h₁ : c >>> 6 = c / 64 := Nat.shiftRight_eq_div_pow c 6
  refine ⟨_, _, _, ?_, (hhigh (c >>> 12) (by omega)).1, (hhigh (c >>> 12) (by omega)).2.1,
    (hhigh (c >>> 12) (by omega)).2.2.1, (hlow (c >>> 6 &&& 0x3f) (by rw [hand]; omega)).1,
    (hlow (c &&& 0x3f) (by rw [hand]; omega)).1, ?_⟩
  · unfold utf8Put
    rw [if_neg (by omega), if_neg (by omega), if_pos (by omega)]
  · rw [(hhigh (c >>> 12) (by omega)).2.2.2, (hlow (c >>> 6 &&& 0x3f) (by rw [hand]; omega)).2,
      (hlow (c &&& 0x3f) (by rw [hand]; omega)).2, hand, hand, h₀, h₁]
    have hor : (c / 4096) <<< 12 ||| (c / 64 % 64) <<< 6 = c / 4096 * 4096 + c / 64 % 64 * 64 := by
      rw [← Nat.shiftLeft_add_eq_or_of_lt, Nat.shiftLeft_eq, Nat.shiftLeft_eq]
      rw [Nat.shiftLeft_eq]
      omega
    have hsum : (c / 4096 * 4096 + c / 64 % 64 * 64) = (c / 64) <<< 6 := by
      rw [Nat.shiftLeft_eq]
      omega
    rw [hor, hsum, ← Nat.shiftLeft_add_eq_or_of_lt (by omega), Nat.shiftLeft_eq]
    omega

/-- **A character** of the texts is an ASCII one, or a CJK or kana one. -/
theorem Covered.cases (h : Covered c) : (0 < c ∧ c < 0x80 ∧ isCjk c = false) ∨ isCjk c := by
  rcases h with ⟨hpos, hlt⟩ | h
  · refine Or.inl ⟨hpos, hlt, ?_⟩
    simp [isCjk, utf8IsCjkHiraKata]
    omega
  · exact Or.inr h

theorem enc_eq_nil : enc s = [] ↔ s = [] := by
  have hput : ∀ c, utf8Put c ≠ [] := by
    intro c
    unfold utf8Put
    repeat' split
    all_goals simp
  cases s with
  | nil => simp [enc]
  | cons c s => simp [enc_cons, hput]

theorem length_le_enc (s : List Nat) : s.length ≤ (enc s).length := by
  induction s with
  | nil => exact Nat.zero_le _
  | cons c s ih =>
    have hpos : 0 < (utf8Put c).length := by
      unfold utf8Put
      repeat' split
      all_goals simp
    rw [enc_cons, List.length_append, List.length_cons]
    omega

theorem nulFree_enc (h : ∀ c ∈ s, Covered c) : (0 : UInt8) ∉ enc s := by
  induction s with
  | nil => exact List.not_mem_nil
  | cons c s ih =>
    rw [enc_cons, List.mem_append, not_or]
    refine ⟨?_, ih fun d hd => h d (List.mem_cons_of_mem c hd)⟩
    rcases (h c List.mem_cons_self).cases with ⟨hpos, hlt, -⟩ | hk
    · rw [put_ascii hlt, List.mem_singleton, ← UInt8.toNat_inj, UInt8.toNat_ofNat',
        Nat.mod_eq_of_lt (by omega)]
      exact Nat.ne_of_lt hpos
    · obtain ⟨b₀, b₁, b₂, hput, hb₀, -, -, hb₁, hb₂, -⟩ := put_cjk hk
      have hne : b₀ ≠ 0 := by
        rintro rfl
        exact hb₀ (by decide)
      simp [hput, hne.symm, hb₁.symm, hb₂.symm]

/-! ### Classes of bytes -/

/-- A class of bytes is a class of ASCII characters. -/
structure ClassOf (f : UInt8 → Bool) (p : Nat → Bool) : Prop where
  eq   : ∀ b, f b = p b.toNat
  high : ∀ n, 0x80 ≤ n → p n = false
  zero : p 0 = false

theorem classOf_digit : ClassOf asciiDigit isDigit := by
  refine ⟨fun b => rfl, fun n hn => ?_, rfl⟩
  simp [isDigit]
  omega

theorem classOf_alpha : ClassOf asciiAlpha isAlpha := by
  refine ⟨fun b => rfl, fun n hn => ?_, rfl⟩
  simp [isAlpha]
  omega

theorem classOf_punct : ClassOf joyaiAsciiPunctSymbol isPunct := by
  refine ⟨fun b => rfl, fun n hn => ?_, rfl⟩
  simp [isPunct]
  omega

theorem classOf_newline : ClassOf asciiNewline isNewline := by
  refine ⟨fun b => ?_, fun n hn => ?_, rfl⟩
  · rw [Bool.eq_iff_iff]
    simp [asciiNewline, isNewline, ← UInt8.toNat_inj]
  · simp [isNewline]
    omega

theorem classOf_space : ClassOf asciiSpace isSpace := by
  refine ⟨fun b => ?_, fun n hn => ?_, rfl⟩
  · rw [Bool.eq_iff_iff]
    simp [asciiSpace, isSpace, ← UInt8.toNat_inj]
    omega
  · simp [isSpace]
    omega

variable {f : UInt8 → Bool} {p : Nat → Bool}

theorem ofNat_lt {n : Nat} (h : n < 0x80) : UInt8.ofNat n < 0x80 := by
  rw [UInt8.lt_iff_toNat_lt, UInt8.toNat_ofNat', Nat.mod_eq_of_lt (by omega)]
  exact h

theorem ClassOf.ascii (h : ClassOf f p) {n : Nat} (hn : n < 0x80) : f (UInt8.ofNat n) = p n := by
  rw [h.eq, UInt8.toNat_ofNat', Nat.mod_eq_of_lt (by omega)]

theorem ClassOf.cjk (h : ClassOf f p) {c : Nat} (hc : isCjk c) : p c = false := by
  apply h.high
  simp [isCjk, utf8IsCjkHiraKata] at hc
  omega

theorem ClassOf.of_high (h : ClassOf f p) {b : UInt8} (hb : ¬ b < 0x80) : f b = false := by
  rw [UInt8.lt_iff_toNat_lt] at hb
  rw [h.eq]
  exact h.high _ (Nat.not_lt.mp hb)

/-- **The byte at the start** is in the class where the character is. -/
theorem ClassOf.head (h : ClassOf f p) (hs : ∀ c ∈ s, Covered c) :
    f ((enc s).getD 0 0) = s.head?.any p := by
  cases s with
  | nil => exact (h.eq 0).trans h.zero
  | cons c s =>
    rcases (hs c List.mem_cons_self).cases with ⟨-, hlt, -⟩ | hk
    · rw [enc_cons, put_ascii hlt]
      exact h.ascii hlt
    · obtain ⟨b₀, b₁, b₂, hput, hb₀, -⟩ := put_cjk hk
      rw [enc_cons, hput]
      exact (h.of_high hb₀).trans (h.cjk hk).symm

/-- **A run** of bytes of the class is a run of characters. -/
theorem ClassOf.dropWhile (h : ClassOf f p) (hs : ∀ c ∈ s, Covered c) :
    (enc s).dropWhile f = enc (s.dropWhile p) := by
  induction s with
  | nil => rfl
  | cons c s ih =>
    have ih := ih fun d hd => hs d (List.mem_cons_of_mem c hd)
    rcases (hs c List.mem_cons_self).cases with ⟨-, hlt, -⟩ | hk
    · rw [enc_cons, put_ascii hlt, List.singleton_append, List.dropWhile_cons, List.dropWhile_cons,
        h.ascii hlt]
      split
      · exact ih
      · rw [enc_cons, put_ascii hlt, List.singleton_append]
    · obtain ⟨b₀, b₁, b₂, hput, hb₀, -⟩ := put_cjk hk
      have hb := h.of_high hb₀
      have hc := h.cjk hk
      simp [enc_cons, hput, hb, hc]

/-! ### Characters at the start of a text -/

theorem utf8CharLen_enc (hc : Covered c) (s : List Nat) :
    utf8CharLen (enc (c :: s)) = (utf8Put c).length := by
  unfold utf8CharLen
  rcases hc.cases with ⟨-, hlt, -⟩ | hk
  · have hlow : utf8LenFromFirstByte (UInt8.ofNat c) = 1 := if_pos (ofNat_lt hlt)
    rw [enc_cons, put_ascii hlt]
    simp [hlow]
  · obtain ⟨b₀, b₁, b₂, hput, hb₀, hb₂', hb₃, -⟩ := put_cjk hk
    rw [enc_cons, hput]
    simp [utf8LenFromFirstByte, hb₀, hb₂', hb₃]

theorem nextUtf8Char_enc (hc : Covered c) (s : List Nat) : nextUtf8Char (enc (c :: s)) = enc s := by
  unfold nextUtf8Char
  rw [utf8CharLen_enc hc, enc_cons, List.drop_left]

theorem joyaiCjkAt_enc (hs : ∀ c ∈ s, Covered c) : joyaiCjkAt (enc s) = s.head?.any isCjk := by
  cases s with
  | nil => rfl
  | cons c s =>
    have hlen := utf8CharLen_enc (hs c List.mem_cons_self) s
    rw [List.head?_cons, Option.any_some]
    unfold joyaiCjkAt utf8PeekOne
    rw [hlen]
    rcases (hs c List.mem_cons_self).cases with ⟨-, hlt, hk⟩ | hk
    · have hlow := ofNat_lt hlt
      rw [enc_cons, put_ascii hlt, hk]
      simp [hlow]
    · obtain ⟨b₀, b₁, b₂, hput, hb₀, -, -, -, -, hdec⟩ := put_cjk hk
      rw [enc_cons, hput, hk]
      simp only [List.cons_append, List.getD_cons_zero, if_neg hb₀]
      exact (congrArg utf8IsCjkHiraKata hdec).trans hk

theorem joyaiLetterLikeAt_enc (hs : ∀ c ∈ s, Covered c) :
    joyaiLetterLikeAt (enc s) = s.head?.any isLetter := by
  cases s with
  | nil => rfl
  | cons c s =>
    unfold joyaiLetterLikeAt isLetter
    rw [List.head?_cons, Option.any_some]
    rcases (hs c List.mem_cons_self).cases with ⟨-, hlt, hk⟩ | hk
    · have hlow := ofNat_lt hlt
      rw [enc_cons, put_ascii hlt, hk]
      simp [hlow, (classOf_alpha).ascii hlt]
    · obtain ⟨b₀, b₁, b₂, hput, hb₀, -⟩ := put_cjk hk
      rw [enc_cons, hput, hk]
      simp [hb₀]

/-- **A run** of characters. -/
theorem charsWhile_enc {at' : Bytes → Bool}
    (hat : ∀ s : List Nat, (∀ c ∈ s, Covered c) → at' (enc s) = s.head?.any p) :
    ∀ (s : List Nat) (fuel : Nat), (∀ c ∈ s, Covered c) → s.length ≤ fuel →
      charsWhile at' fuel (enc s) = enc (s.dropWhile p) := by
  intro s
  induction s with
  | nil =>
    intro fuel _ _
    cases fuel <;> simp [charsWhile, enc]
  | cons c s ih =>
    intro fuel hs hlen
    cases fuel with
    | zero => exact absurd hlen (Nat.not_succ_le_zero _)
    | succ fuel =>
      have hne : enc (c :: s) ≠ [] := fun h => by cases (enc_eq_nil).mp h
      have hc := hat (c :: s) hs
      rw [List.head?_cons, Option.any_some] at hc
      unfold charsWhile
      rw [hc, List.dropWhile_cons, nextUtf8Char_enc (hs c List.mem_cons_self)]
      by_cases hp : p c
      · rw [if_pos ⟨hne, hp⟩, if_pos hp]
        exact ih fuel (fun d hd => hs d (List.mem_cons_of_mem c hd)) (Nat.le_of_succ_le_succ hlen)
      · rw [if_neg fun h => hp h.2, if_neg hp]

theorem digits_enc : ∀ (n : Nat) (s : List Nat), (∀ c ∈ s, Covered c) →
    digits n (enc s) = enc (dropDigits n s) := by
  intro n
  induction n with
  | zero =>
    intro s _
    cases s <;> simp [digits, dropDigits]
  | succ n ih =>
    intro s hs
    cases s with
    | nil => rfl
    | cons c s =>
      rcases (hs c List.mem_cons_self).cases with ⟨-, hlt, -⟩ | hk
      · rw [enc_cons, put_ascii hlt, List.singleton_append]
        unfold digits dropDigits
        rw [(classOf_digit).ascii hlt]
        split
        · exact ih s fun d hd => hs d (List.mem_cons_of_mem c hd)
        · rw [enc_cons, put_ascii hlt, List.singleton_append]
      · obtain ⟨b₀, b₁, b₂, hput, hb₀, -⟩ := put_cjk hk
        simp [enc_cons, hput, digits, dropDigits, (classOf_digit).of_high hb₀, (not_of_cjk hk).1]

/-! ### Spaces -/

theorem isSpace_lt (h : isSpace c) : c < 0x80 := by
  simp [isSpace] at h
  omega

/-- Spaces take one byte each. -/
theorem enc_drop_spaces {l : List Nat} (h : ∀ c ∈ l, isSpace c) (r : List Nat) :
    (enc (l ++ r)).drop l.length = enc r := by
  have hlen : (enc l).length = l.length := by
    induction l with
    | nil => rfl
    | cons c l ih =>
      rw [enc_cons, put_ascii (isSpace_lt (h c List.mem_cons_self)), List.length_append,
        ih fun d hd => h d (List.mem_cons_of_mem c hd), List.length_singleton, List.length_cons,
        Nat.add_comm]
  rw [enc_append, ← hlen, List.drop_left]

theorem spaceLoop_enc :
    ∀ (s : List Nat) (p last : Nat), (∀ c ∈ s, Covered c) →
      spaceLoop (enc s) p last = (p + (s.takeWhile isSpace).length,
        ((upToLast isSpace isNewline s).map fun r => p + (s.length - r.length)).getD last) := by
  intro s
  induction s with
  | nil => exact fun p last _ => rfl
  | cons c s ih =>
    intro p last hs
    have ih := fun p last => ih p last fun d hd => hs d (List.mem_cons_of_mem c hd)
    by_cases hc : isSpace c
    · have hlt := isSpace_lt hc
      rw [enc_cons, put_ascii hlt, List.singleton_append, List.takeWhile_cons_of_pos hc,
        List.length_cons]
      unfold spaceLoop upToLast
      rw [(classOf_space).ascii hlt, (classOf_newline).ascii hlt, if_pos hc, if_pos hc, ih]
      cases hlast : upToLast isSpace isNewline s with
      | some r =>
        obtain ⟨l, d, rfl, -⟩ := upToLast_eq_some hlast
        simp only [Option.map_some, Option.getD_some, Option.some_or, List.length_append,
          List.length_cons, Prod.mk.injEq]
        omega
      | none =>
        by_cases hn : isNewline c
        · simp only [hn, Option.map_none, Option.getD_none, Option.none_or, if_true, Option.map_some,
            Option.getD_some, Prod.mk.injEq, List.length_cons]
          omega
        · simp only [hn, Option.map_none, Option.getD_none, Option.none_or, Prod.mk.injEq]
          simp
          omega
    · have hfalse : asciiSpace ((enc (c :: s)).getD 0 0) = false := by
        rw [(classOf_space).head hs]
        simpa using hc
      rw [List.takeWhile_cons_of_neg hc]
      unfold upToLast
      rw [if_neg hc]
      cases hb : enc (c :: s) with
      | nil => cases (enc_eq_nil).mp hb
      | cons b bs =>
        rw [hb] at hfalse
        unfold spaceLoop
        rw [if_neg (by simpa using hfalse)]
        rfl

theorem spaceRest_enc (hs : ∀ c ∈ s, Covered c) : spaceRest (enc s) = enc (spaceBranch isJoined s) := by
  -- the run of spaces, and what is behind it
  have hsplit : s.takeWhile isSpace ++ s.dropWhile isSpace = s := List.takeWhile_append_dropWhile
  have hrun : ∀ c ∈ s.takeWhile isSpace, isSpace c := fun c hc =>
    List.all_eq_true.mp List.all_takeWhile c hc
  have htail : ∀ c ∈ s.dropWhile isSpace, Covered c := fun c hc =>
    hs c ((List.dropWhile_suffix isSpace).subset hc)
  have hdrop : (enc s).drop (s.takeWhile isSpace).length = enc (s.dropWhile isSpace) := by
    have := enc_drop_spaces hrun (s.dropWhile isSpace)
    rwa [hsplit] at this
  unfold spaceRest spaceBranch
  rw [spaceLoop_enc s 0 0 hs]
  dsimp only
  cases hlast : upToLast isSpace isNewline s with
  | some r =>
    obtain ⟨l, d, hl, hd, -, hsp⟩ := upToLast_eq_some hlast
    have hlen : s.length - r.length = (l ++ [d]).length := by
      rw [hl]
      simp only [List.length_append, List.length_cons, List.length_nil]
      omega
    have hsp' : ∀ c ∈ l ++ [d], isSpace c := by
      intro c hc
      rcases List.mem_append.mp hc with hc | hc
      · exact hsp c hc
      · rw [List.mem_singleton.mp hc]
        exact hd
    rw [Option.map_some, Option.getD_some, Nat.zero_add, hlen, if_pos (by simp)]
    have := enc_drop_spaces hsp' r
    rwa [List.append_assoc, List.singleton_append, ← hl] at this
  | none =>
    rw [Option.map_none, Option.getD_none, if_neg (by simp), Nat.zero_add, hdrop]
    dsimp only
    have hlt : (s.takeWhile isSpace).length < (enc s).length ↔ s.dropWhile isSpace ≠ [] := by
      have hlen := congrArg List.length hdrop
      rw [List.length_drop] at hlen
      rw [← List.length_pos_iff]
      have hpos : 0 < (enc (s.dropWhile isSpace)).length ↔ 0 < (s.dropWhile isSpace).length := by
        rw [List.length_pos_iff, List.length_pos_iff, Ne, enc_eq_nil]
      rw [← hpos]
      omega
    have hjoin : (joyaiLetterLikeAt (enc (s.dropWhile isSpace)) ∨
        joyaiAsciiPunctSymbol ((enc (s.dropWhile isSpace)).getD 0 0)) ↔
          (s.dropWhile isSpace).head?.any isJoined := by
      rw [joyaiLetterLikeAt_enc htail, (classOf_punct).head htail]
      cases s.dropWhile isSpace with
      | nil => simp
      | cons d t => simp [isJoined]
    have hne : (s.dropWhile isSpace).head?.any isJoined → s.dropWhile isSpace ≠ [] := by
      intro h heq
      rw [heq] at h
      exact absurd h (by simp)
    by_cases hcond : 1 < (s.takeWhile isSpace).length ∧ (s.dropWhile isSpace).head?.any isJoined
    · rw [if_pos ⟨hlt.mpr (hne hcond.2), hcond.1, hjoin.mpr hcond.2⟩, if_pos hcond]
      -- all spaces but the last one
      have hpre : ∀ c ∈ (s.takeWhile isSpace).take ((s.takeWhile isSpace).length - 1), isSpace c :=
        fun c hc => hrun c (List.mem_of_mem_take hc)
      have hs' : (s.takeWhile isSpace).take ((s.takeWhile isSpace).length - 1) ++
          s.drop ((s.takeWhile isSpace).length - 1) = s := by
        conv_rhs => rw [← List.take_append_drop ((s.takeWhile isSpace).length - 1) s]
        congr 1
        conv_rhs => rw [← hsplit]
        rw [List.take_append_of_le_length (by rw [hsplit]; omega), hsplit]
      have := enc_drop_spaces hpre (s.drop ((s.takeWhile isSpace).length - 1))
      rw [hs', List.length_take, Nat.min_eq_left (Nat.sub_le _ _)] at this
      exact this
    · rw [if_neg fun h => hcond ⟨h.2.1, hjoin.mp h.2.2⟩, if_neg hcond]

/-! ### Pieces -/

/-- A character behind an ASCII one. -/
theorem ClassOf.second (h : ClassOf f p) (hc : c < 0x80)
    (hs : ∀ c ∈ s, Covered c) :
    (1 < (enc (c :: s)).length ∧ f ((enc (c :: s)).getD 1 0)) ↔ s.head?.any p := by
  rw [enc_cons, put_ascii hc, ← h.head hs]
  have hzero : f 0 = false := (h.eq 0).trans h.zero
  cases hb : enc s with
  | nil => simp [hzero]
  | cons b bs => simp

/-- **The branches** over bytes are those over characters. -/
theorem pieceRest_enc (hs : ∀ c ∈ s, Covered c) (hne : s ≠ []) :
    pieceRest (enc s) = enc (branches isLetter isJoined s) := by
  cases s with
  | nil => exact absurd rfl hne
  | cons c s =>
    have hs' : ∀ d ∈ s, Covered d := fun d hd => hs d (List.mem_cons_of_mem c hd)
    have hc := hs c List.mem_cons_self
    have hlen := length_le_enc (c :: s)
    unfold pieceRest branches
    simp only [(classOf_digit).head hs, (classOf_punct).head hs, (classOf_newline).head hs,
      (classOf_space).head hs, joyaiCjkAt_enc hs, joyaiLetterLikeAt_enc hs, List.head?_cons,
      Option.any_some]
    by_cases hd : isDigit c
    · rw [if_pos hd, if_pos hd, digits_enc 3 (c :: s) hs]
    · rw [if_neg hd, if_neg hd]
      rcases hc.cases with ⟨-, hlt, hk⟩ | hk
      · -- an ASCII character
        have hk' : ¬ isCjk c := by simp [hk]
        have hdrop : (enc (c :: s)).drop 1 = enc s := by
          rw [enc_cons, put_ascii hlt]
          rfl
        have halpha := (classOf_alpha).second hlt hs'
        have hpunct := (classOf_punct).second hlt hs'
        have hletter : (1 < (enc (c :: s)).length ∧ joyaiLetterLikeAt (enc s)) ↔
            s.head?.any isLetter := by
          rw [joyaiLetterLikeAt_enc hs', enc_cons, put_ascii hlt]
          cases hb : s with
          | nil => simp
          | cons d t =>
            have hpos := length_le_enc (d :: t)
            simp only [List.length_cons] at hpos
            simp only [List.length_append, List.length_singleton, List.head?_cons, Option.any_some,
              and_iff_right_iff_imp]
            intro _
            omega
        have h20 : (enc (c :: s)).getD 0 0 = 0x20 ↔ c = 0x20 := by
          rw [enc_cons, put_ascii hlt]
          show UInt8.ofNat c = 0x20 ↔ c = 0x20
          rw [← UInt8.toNat_inj, UInt8.toNat_ofNat', Nat.mod_eq_of_lt (by omega)]
          rfl
        rw [if_neg hk', if_neg hk', hdrop]
        simp only [halpha, hpunct, hletter, h20, (classOf_alpha).dropWhile hs', (classOf_punct).dropWhile hs',
          (classOf_punct).dropWhile hs, spaceRest_enc hs, nextUtf8Char_enc hc, joyaiConsumeLetters]
        have hwords : ∀ t : List Nat, (∀ d ∈ t, Covered d) →
            charsWhile joyaiLetterLikeAt (enc t).length (enc t) = enc (t.dropWhile isLetter) :=
          fun t ht => charsWhile_enc (fun s hs => joyaiLetterLikeAt_enc hs) t _ ht (length_le_enc t)
        have hlines : ∀ t : List Nat, (∀ d ∈ t, Covered d) →
            (enc (t.dropWhile isPunct)).dropWhile asciiNewline =
              enc ((t.dropWhile isPunct).dropWhile isNewline) := fun t ht =>
          (classOf_newline).dropWhile fun d hd => ht d ((List.dropWhile_suffix isPunct).subset hd)
        rw [hwords _ hs, hwords _ hs', hlines _ hs, hlines _ hs']
        simp only [apply_ite enc]
        by_cases hl : isLetter c
        · rw [List.dropWhile_cons_of_pos hl]
        · simp only [if_neg hl]
      · rw [if_pos hk, if_pos hk, nextUtf8Char_enc hc]
        apply charsWhile_enc (fun s hs => joyaiCjkAt_enc hs) s _ hs'
        rw [List.length_cons] at hlen
        omega

theorem spaceBranch_suffix (joins : Nat → Bool) (hc : isSpace c) (s : List Nat) :
    spaceBranch joins (c :: s) <:+ s := by
  unfold spaceBranch
  cases hlast : upToLast isSpace isNewline (c :: s) with
  | some r =>
    obtain ⟨l, d, hl, -⟩ := upToLast_eq_some hlast
    rcases l with _ | ⟨e, l⟩
    · rw [List.nil_append, List.cons.injEq] at hl
      obtain ⟨-, rfl⟩ := hl
      exact List.suffix_rfl
    · rw [List.cons_append, List.cons.injEq] at hl
      exact ⟨l ++ [d], by rw [hl.2, List.append_assoc, List.singleton_append]⟩
  | none =>
    dsimp only
    rw [List.takeWhile_cons_of_pos hc, List.dropWhile_cons_of_pos hc, List.length_cons,
      Nat.add_sub_cancel]
    split
    · rename_i h
      obtain ⟨n, hn⟩ := Nat.exists_eq_add_one_of_ne_zero (n := (s.takeWhile isSpace).length) (by omega)
      rw [hn, List.drop_succ_cons]
      exact List.drop_suffix n s
    · exact List.dropWhile_suffix isSpace

/-- **Every branch** takes a character at least. -/
theorem branches_suffix (letter joins : Nat → Bool) (c : Nat) (s : List Nat) :
    branches letter joins (c :: s) <:+ s := by
  unfold branches
  dsimp only
  split
  · rename_i hd
    obtain ⟨l, hl, -⟩ := dropDigits_split 2 s
    unfold dropDigits
    rw [if_pos hd]
    exact ⟨l, hl.symm⟩
  split
  · exact List.dropWhile_suffix _
  split
  · exact List.dropWhile_suffix _
  split
  · exact List.dropWhile_suffix _
  split
  · exact List.dropWhile_suffix _
  split
  · exact (List.dropWhile_suffix _).trans (List.dropWhile_suffix _)
  split
  · rename_i hp
    rw [List.dropWhile_cons_of_pos hp]
    exact (List.dropWhile_suffix _).trans (List.dropWhile_suffix _)
  split
  · rename_i hs
    exact spaceBranch_suffix joins hs s
  · exact List.suffix_rfl

theorem ruleRest_suffix (c : Nat) (s : List Nat) : ruleRest (c :: s) <:+ s := by
  obtain ⟨l, hl, -⟩ := ruleRest_cons c s
  exact ⟨l, hl.symm⟩

theorem length_enc_le {r s : List Nat} (h : r <:+ s) : (enc r).length ≤ (enc s).length := by
  obtain ⟨l, rfl⟩ := h
  rw [enc_append, List.length_append]
  omega

/-- Two ends of a text that take as many bytes are the same. -/
theorem eq_of_length_enc {b r s : List Nat} (hb : b <:+ s) (hr : r <:+ s)
    (hlen : (enc b).length = (enc r).length) : b = r := by
  have hle : ∀ {b r : List Nat}, b <:+ r → (enc b).length = (enc r).length → b = r := by
    rintro b r ⟨l, rfl⟩ hlen
    rw [enc_append, List.length_append] at hlen
    have hnil : l = [] := (enc_eq_nil).mp (List.eq_nil_of_length_eq_zero (by omega))
    rw [hnil, List.nil_append]
  rcases List.suffix_or_suffix_of_suffix hb hr with h | h
  · exact hle h hlen
  · exact (hle h hlen.symm).symm

/-- **The first piece** of the code. -/
theorem afterPiece_enc (hs : ∀ d ∈ c :: s, Covered d) :
    afterPiece (enc (c :: s)) = enc (branches isLetter isJoined (c :: s)) := by
  have hshort := length_enc_le (branches_suffix isLetter isJoined c s)
  have hlen : (enc s).length < (enc (c :: s)).length := by
    have hpos := utf8CharLen_pos (enc (c :: s))
    rw [utf8CharLen_enc (hs c List.mem_cons_self)] at hpos
    rw [enc_cons, List.length_append]
    omega
  unfold afterPiece
  rw [pieceRest_enc hs (List.cons_ne_nil c s), if_neg (by omega)]

theorem take_enc {b s : List Nat} (h : b <:+ s) :
    (enc s).take ((enc s).length - (enc b).length) = enc (before s b) := by
  conv_lhs => rw [← before_of_suffix h]
  rw [enc_append, List.length_append, Nat.add_sub_cancel, List.take_left]

/-- **All pieces.** -/
theorem piecesLoop_enc :
    ∀ (n fuel : Nat) (s : List Nat), (∀ c ∈ s, Covered c) → s.length ≤ n → (enc s).length ≤ fuel →
      (piecesLoop fuel (enc s) = (ruleStartsLoop n s).map (fun t => enc (before t (ruleRest t))) ↔
        ∀ t ∈ ruleStartsLoop n s, runsOn t = false) := by
  intro n
  induction n with
  | zero =>
    intro fuel s _ hlen _
    obtain rfl := List.eq_nil_of_length_eq_zero (Nat.le_zero.mp hlen)
    cases fuel <;> simp [piecesLoop, ruleStartsLoop, enc]
  | succ n ih =>
    intro fuel s hs hlen hfuel
    cases s with
    | nil => cases fuel <;> simp [piecesLoop, ruleStartsLoop, enc]
    | cons c s =>
      have hne : enc (c :: s) ≠ [] := fun h => by cases (enc_eq_nil).mp h
      have hpos := List.length_pos_of_ne_nil hne
      cases fuel with
      | zero => omega
      | succ fuel =>
        have hb := branches_suffix isLetter isJoined c s
        have hr := ruleRest_suffix c s
        have hcons := List.suffix_cons c s
        have hlt := afterPiece_length hne
        unfold piecesLoop ruleStartsLoop
        rw [if_neg hne, List.map_cons, List.forall_mem_cons, List.cons.injEq]
        rw [afterPiece_enc hs] at hlt ⊢
        rw [take_enc (hb.trans hcons), ← branches_eq_iff (c :: s)]
        by_cases heq : branches isLetter isJoined (c :: s) = ruleRest (c :: s)
        · have hrs : ∀ d ∈ ruleRest (c :: s), Covered d := fun d hd =>
            hs d (List.mem_cons_of_mem c (hr.subset hd))
          have hrlen := hr.length_le
          rw [List.length_cons] at hlen
          rw [heq] at hlt ⊢
          have hiff := ih fuel (ruleRest (c :: s)) hrs (by omega) (by omega)
          simp only [true_and]
          exact hiff
        · constructor
          · rintro ⟨hhead, -⟩
            -- the first pieces take as many bytes
            have hlen' := congrArg List.length hhead
            rw [← take_enc (hb.trans hcons), ← take_enc (hr.trans hcons), List.length_take,
              List.length_take] at hlen'
            have h₁ := length_enc_le (hb.trans hcons)
            have h₂ := length_enc_le (hr.trans hcons)
            exact absurd (eq_of_length_enc hb hr (by omega)) heq
          · rintro ⟨h, -⟩
            exact absurd h heq

theorem mem_ruleStartsLoop : ∀ (n : Nat) {s t : List Nat}, t ∈ ruleStartsLoop n s → t <:+ s ∧ t ≠ [] := by
  intro n
  induction n with
  | zero =>
    intro s t h
    cases s <;> simp [ruleStartsLoop] at h
  | succ n ih =>
    intro s t h
    cases s with
    | nil => simp [ruleStartsLoop] at h
    | cons c s =>
      unfold ruleStartsLoop at h
      rcases List.mem_cons.mp h with rfl | h
      · exact ⟨List.suffix_rfl, List.cons_ne_nil c s⟩
      · obtain ⟨ht, hne⟩ := ih h
        exact ⟨ht.trans ((ruleRest_suffix c s).trans (List.suffix_cons c s)), hne⟩

/-- **No piece of the patterns** mixes CJK or kana characters with others. -/
theorem rulePieces_unmixed {q : List Nat} (h : q ∈ rulePieces s) : q ⊆ s ∧ Unmixed q := by
  obtain ⟨t, ht, rfl⟩ := List.mem_map.mp h
  obtain ⟨hsuffix, hne⟩ := mem_ruleStartsLoop _ ht
  obtain ⟨c, t', rfl⟩ := List.exists_cons_of_ne_nil hne
  obtain ⟨l, hl, hun⟩ := ruleRest_cons c t'
  have hbefore : before (c :: t') (ruleRest (c :: t')) = c :: l := by
    have happ := before_append (c :: l) (ruleRest (c :: t'))
    rwa [List.cons_append, ← hl] at happ
  rw [hbefore]
  refine ⟨fun d hd => hsuffix.subset ?_, hun⟩
  rcases List.mem_cons.mp hd with rfl | hd
  · exact List.mem_cons_self
  · rw [hl]
    exact List.mem_cons_of_mem c (List.mem_append_left _ hd)

/-- **The exact condition.** The pieces of a text of ASCII, CJK and kana characters are those of the
    patterns, and none of them mixes CJK or kana characters with others, exactly when no piece of the
    patterns starts at a place where the code runs on: a word that is followed by CJK or kana characters,
    a space or a control character that is followed by them, or spaces before them or before a control
    character. -/
theorem pretokenizer_follows_rules_iff (h : ∀ c ∈ s, Covered c) :
    FollowsRules s ↔ ∀ t ∈ ruleStarts s, runsOn t = false := by
  have hiff := piecesLoop_enc s.length (enc s).length s h (Nat.le_refl _) (Nat.le_refl _)
  have hmap : (rulePieces s).map enc = (ruleStartsLoop s.length s).map
      fun t => enc (before t (ruleRest t)) := by
    unfold rulePieces ruleStarts
    rw [List.map_map]
    rfl
  unfold FollowsRules ruleStarts pieces
  rw [cstr_eq_self (nulFree_enc h), hmap, hiff]
  constructor
  · exact fun hrules => hrules.1
  · intro hclear
    refine ⟨hclear, fun p hp => ?_⟩
    rw [hiff.mpr hclear, ← hmap] at hp
    obtain ⟨q, hq, rfl⟩ := List.mem_map.mp hp
    obtain ⟨hsub, hun⟩ := rulePieces_unmixed hq
    exact ⟨q, rfl, hsub, hun⟩

/-- A text with all kinds of pieces next to each other. -/
def sampleText : List Nat := [0x21, 0x69, 0x66, 0x0a, 0x6f22, 0x5b57, 0x31, 0x32, 0x0a]

theorem pretokenizer_follows_rules_sample : FollowsRules sampleText := by
  have hcov : ∀ c ∈ sampleText, Covered c := by
    unfold Covered
    decide +kernel
  exact (pretokenizer_follows_rules_iff hcov).mpr (by decide +kernel)

/-- A word runs on into the characters behind it. -/
theorem not_followsRules_word :
    (∀ c ∈ [0x61, 0x6f22], Covered c) ∧ ¬ FollowsRules [0x61, 0x6f22] := by
  refine ⟨by unfold Covered; decide +kernel, fun h => ?_⟩
  exact absurd h.1 (by decide +kernel)

end DS4.Tokenizer
