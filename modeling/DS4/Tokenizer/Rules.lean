import DS4.Lib.Pattern
import DS4.Tokenizer.Pretokenize

namespace DS4.Tokenizer

/-!
# Tokenizer — the rules of the split

The comment above `bpe_tokenize_text` states the split as a list of patterns.  Here they are matched
over codepoints, by a backtracking matcher: runs of digits and of CJK or kana characters are isolated
first, and the other patterns see only what is between them.

* `isolated`, `generic` — the patterns; `ruleRest`, `rulePieces` — the split.
* `branches` — the branches of the code over codepoints, with the letters that they take.
* `ruleRest_eq` — the patterns take what the branches take when letters are those of ASCII.
* `runsOn`, `branches_eq_iff` — the places where the branches of the code take something else.
* `rulePieces_unmixed` — no piece of the patterns mixes CJK or kana characters with others.
-/

open DS4.Lib

/-! ### Characters -/

def isDigit (c : Nat) : Bool := decide (0x30 ≤ c ∧ c ≤ 0x39)

def isAlpha (c : Nat) : Bool := decide (0x41 ≤ c ∧ c ≤ 0x5a) || decide (0x61 ≤ c ∧ c ≤ 0x7a)

def isPunct (c : Nat) : Bool :=
  decide (0x21 ≤ c ∧ c ≤ 0x2f) || decide (0x3a ≤ c ∧ c ≤ 0x40) || decide (0x5b ≤ c ∧ c ≤ 0x60) ||
    decide (0x7b ≤ c ∧ c ≤ 0x7e)

def isSpace (c : Nat) : Bool := decide (0x09 ≤ c ∧ c ≤ 0x0d) || decide (c = 0x20)

def isNewline (c : Nat) : Bool := decide (c = 0x0a) || decide (c = 0x0d)

/-- CJK, Hiragana and Katakana. -/
def isCjk (c : Nat) : Bool := utf8IsCjkHiraKata c

/-- `\p{L}` and `\p{M}` among the characters of the texts. -/
def isLetter (c : Nat) : Bool := isAlpha c || isCjk c

/-- What is none of these. -/
def isControl (c : Nat) : Bool := !isDigit c && !isAlpha c && !isPunct c && !isSpace c && !isCjk c

/-- ASCII, or CJK, Hiragana, Katakana. -/
def Covered (c : Nat) : Prop := (0 < c ∧ c < 0x80) ∨ isCjk c

/-! ### The patterns -/

/-- `\p{N}{1,3}` -/
def digitRule : Pat Nat :=
  .seq (.one isDigit) (.opt (.seq (.one isDigit) (.opt (.one isDigit))))

/-- `[CJK/Hiragana/Katakana]+` -/
def cjkRule : Pat Nat := .plus isCjk

/-- `[P/S][A-Za-z]+` -/
def punctWordRule : Pat Nat := .seq (.one isPunct) (.plus isAlpha)

/-- `[^\r\n\p{L}\p{P}\p{S}]?[\p{L}\p{M}]+` -/
def wordRule : Pat Nat :=
  .seq (.opt (.one fun c => !isNewline c && !isLetter c && !isPunct c)) (.plus isLetter)

/-- ` ?[\p{P}\p{S}]+[\r\n]*` -/
def punctRule : Pat Nat :=
  .seq (.opt (.one fun c => decide (c = 0x20))) (.seq (.plus isPunct) (.many isNewline))

/-- `\s*[\r\n]+` -/
def newlineRule : Pat Nat := .seq (.many isSpace) (.plus isNewline)

/-- `\s+(?!\S)` -/
def trailingSpaceRule : Pat Nat := .seq (.plus isSpace) (.notAhead fun c => !isSpace c)

/-- `\s+` -/
def spaceRule : Pat Nat := .plus isSpace

/-- The patterns that come first. -/
def isolated : List (Pat Nat) := [digitRule, cjkRule]

/-- The other patterns, in order. -/
def generic : List (Pat Nat) :=
  [punctWordRule, wordRule, punctRule, newlineRule, trailingSpaceRule, spaceRule]

/-- Characters that no isolated run has. -/
def isPlain (c : Nat) : Bool := !isDigit c && !isCjk c

/-- What is behind the first piece. A character that no pattern takes is a piece. -/
def ruleRest : List Nat → List Nat
  | []     => []
  | c :: s =>
    match firstRest isolated (c :: s) with
    | some r => r
    | none   =>
      match firstRest generic ((c :: s).takeWhile isPlain) with
      | some r => r ++ (c :: s).dropWhile isPlain
      | none   => s

/-- What is before the end of a text. -/
def before (s r : List Nat) : List Nat := s.take (s.length - r.length)

/-- Where the pieces start: what is left of the text there. A piece has a character at least. -/
def ruleStartsLoop : Nat → List Nat → List (List Nat)
  | fuel + 1, c :: s => (c :: s) :: ruleStartsLoop fuel (ruleRest (c :: s))
  | _, _             => []

def ruleStarts (s : List Nat) : List (List Nat) := ruleStartsLoop s.length s

/-- The pieces of a text. -/
def rulePieces (s : List Nat) : List (List Nat) := (ruleStarts s).map fun t => before t (ruleRest t)

/-! ### The branches -/

/-- A run of at most this many digits. -/
def dropDigits : Nat → List Nat → List Nat
  | n + 1, c :: s => if isDigit c then dropDigits n s else c :: s
  | _, s          => s

/-- The branch for spaces: the last of them stays for a next piece that it joins. -/
def spaceBranch (joins : Nat → Bool) (s : List Nat) : List Nat :=
  match upToLast isSpace isNewline s with
  | some r => r
  | none   =>
    if 1 < (s.takeWhile isSpace).length ∧ (s.dropWhile isSpace).head?.any joins then
      s.drop ((s.takeWhile isSpace).length - 1)
    else s.dropWhile isSpace

/-- The branches, with the letters that make up words. -/
def branches (letter joins : Nat → Bool) : List Nat → List Nat
  | []     => []
  | c :: s =>
    if isDigit c then dropDigits 3 (c :: s)
    else if isCjk c then s.dropWhile isCjk
    else if isPunct c ∧ s.head?.any isAlpha then s.dropWhile isAlpha
    else if letter c then s.dropWhile letter
    else if ¬ isNewline c ∧ ¬ isPunct c ∧ s.head?.any letter then s.dropWhile letter
    else if c = 0x20 ∧ s.head?.any isPunct then (s.dropWhile isPunct).dropWhile isNewline
    else if isPunct c then ((c :: s).dropWhile isPunct).dropWhile isNewline
    else if isSpace c then spaceBranch joins (c :: s)
    else s

/-- The characters that a space joins in the code. -/
def isJoined (c : Nat) : Bool := isLetter c || isPunct c

/-- **The places where the code runs on**: a word that CJK or kana characters follow, a space or a
    control character that they follow, and spaces that they or a control character follow. -/
def runsOn : List Nat → Bool
  | []     => false
  | c :: s =>
    if isAlpha c then (s.dropWhile isAlpha).head?.any isCjk
    else if isNewline c || isPunct c || isDigit c || isCjk c then false
    else if s.head?.any isAlpha then (s.dropWhile isAlpha).head?.any isCjk
    else if s.head?.any isCjk then true
    else
      decide (1 < ((c :: s).takeWhile isSpace).length) && !((c :: s).takeWhile isSpace).any isNewline &&
        ((c :: s).dropWhile isSpace).head?.any fun d => isCjk d || isControl d

/-! ### Classes -/

variable {c : Nat} {s r : List Nat}

theorem plain_of_alpha (c : Nat) (h : isAlpha c) : isPlain c := by
  simp [isAlpha, isPlain, isDigit, isCjk, utf8IsCjkHiraKata] at *
  omega

theorem plain_of_punct (c : Nat) (h : isPunct c) : isPlain c := by
  simp [isPunct, isPlain, isDigit, isCjk, utf8IsCjkHiraKata] at *
  omega

theorem plain_of_space (c : Nat) (h : isSpace c) : isPlain c := by
  simp [isSpace, isPlain, isDigit, isCjk, utf8IsCjkHiraKata] at *
  omega

theorem space_of_newline (c : Nat) (h : isNewline c) : isSpace c := by
  simp [isSpace, isNewline] at *
  omega

theorem not_of_alpha (h : isAlpha c) : isPunct c = false ∧ isNewline c = false ∧ isSpace c = false := by
  simp [isAlpha, isPunct, isNewline, isSpace] at *
  omega

theorem not_of_punct (h : isPunct c) :
    isAlpha c = false ∧ isNewline c = false ∧ isSpace c = false ∧ c ≠ 0x20 := by
  simp [isAlpha, isPunct, isNewline, isSpace] at *
  omega

theorem not_of_space (h : isSpace c) : isAlpha c = false ∧ isPunct c = false := by
  simp [isAlpha, isPunct, isSpace] at *
  omega

theorem not_of_plain (h : isPlain c) : isDigit c = false ∧ isCjk c = false := by
  simpa [isPlain] using h

theorem not_of_digit (h : isDigit c) :
    isCjk c = false ∧ isAlpha c = false ∧ isPunct c = false ∧ isNewline c = false ∧ isSpace c = false := by
  simp [isDigit, isCjk, utf8IsCjkHiraKata, isAlpha, isPunct, isNewline, isSpace] at *
  omega

theorem not_of_cjk (h : isCjk c) :
    isDigit c = false ∧ isAlpha c = false ∧ isPunct c = false ∧ isNewline c = false ∧ isSpace c = false := by
  simp [isDigit, isCjk, utf8IsCjkHiraKata, isAlpha, isPunct, isNewline, isSpace] at *
  omega

/-! ### The patterns without backtracking -/

theorem digitRule_rest (c : Nat) (s : List Nat) :
    digitRule.rest (c :: s) = if isDigit c then some (dropDigits 2 s) else none := by
  unfold digitRule
  rw [Pat.rest_oneSeq, Pat.rest_opt]
  rcases s with _ | ⟨d, s⟩
  · rfl
  · rw [Pat.rest_oneSeq, Pat.rest_opt]
    rcases s with _ | ⟨e, s⟩
    · by_cases hd : isDigit d <;> simp [dropDigits, hd, Pat.rest, Pat.ends]
    · by_cases hd : isDigit d
      · by_cases he : isDigit e <;> simp [dropDigits, hd, he, Pat.rest, Pat.ends]
      · simp [dropDigits, hd]

theorem firstRest_isolated (c : Nat) (s : List Nat) :
    firstRest isolated (c :: s) =
      if isDigit c then some (dropDigits 2 s) else if isCjk c then some (s.dropWhile isCjk) else none := by
  unfold isolated
  rw [firstRest_cons, firstRest_cons, digitRule_rest, cjkRule, Pat.rest_plus]
  by_cases hd : isDigit c
  · simp [hd]
  · by_cases hk : isCjk c <;> simp [hd, hk, firstRest]

theorem wordRule_rest (c : Nat) {g : List Nat} (hg : ∀ d ∈ c :: g, isPlain d) :
    wordRule.rest (c :: g) =
      if isAlpha c then some (g.dropWhile isAlpha)
      else if ¬ isNewline c ∧ ¬ isPunct c ∧ g.head?.any isAlpha then some (g.dropWhile isAlpha)
      else none := by
  -- the letters of a plain text are those of ASCII
  have hletter : ∀ d ∈ c :: g, isLetter d = isAlpha d := by
    intro d hd
    simp [isLetter, (not_of_plain (hg d hd)).2]
  have hc := hletter c List.mem_cons_self
  have hg' : ∀ d ∈ g, isLetter d = isAlpha d := fun d hd => hletter d (List.mem_cons_of_mem c hd)
  unfold wordRule
  rw [Pat.rest_optSeq, Pat.rest_plus, Pat.rest_plus_eq, hc, dropWhile_congr_mem hg', head?_any_congr hg']
  by_cases ha : isAlpha c
  · simp [ha]
  · by_cases hn : isNewline c
    · simp [ha, hn]
    · by_cases hp : isPunct c
      · simp [ha, hn, hp]
      · by_cases hh : g.head?.any isAlpha <;> simp [ha, hn, hp, hh]

theorem punctRule_rest (c : Nat) (g : List Nat) :
    punctRule.rest (c :: g) =
      if c = 0x20 ∧ g.head?.any isPunct then some ((g.dropWhile isPunct).dropWhile isNewline)
      else if isPunct c then some (((c :: g).dropWhile isPunct).dropWhile isNewline)
      else none := by
  unfold punctRule
  rw [Pat.rest_optSeq, Pat.rest_plusMany, Pat.rest_plusMany, List.head?_cons, Option.any_some]
  by_cases hc : c = 0x20
  · by_cases hh : g.head?.any isPunct <;> simp [hc, hh]
  · simp [hc]

/-- What the patterns for spaces take of a plain text. -/
theorem spaceRules_rest (c : Nat) {g : List Nat} (hc : isSpace c) (hg : ∀ d ∈ c :: g, isPlain d) :
    firstRest [newlineRule, trailingSpaceRule, spaceRule] (c :: g) =
      some (spaceBranch isPlain (c :: g)) := by
  rw [firstRest_cons, firstRest_cons, firstRest_cons, newlineRule, trailingSpaceRule, spaceRule,
    Pat.rest_upToLast space_of_newline, Pat.rest_notBefore, Pat.rest_plus, if_pos hc, if_pos hc]
  unfold spaceBranch
  cases upToLast isSpace isNewline (c :: g) with
  | some r => rfl
  | none =>
    dsimp only
    rw [Option.none_or, notBefore_eq, List.takeWhile_cons_of_pos hc, List.dropWhile_cons_of_pos hc,
      List.length_cons]
    by_cases hd : g.dropWhile isSpace = []
    · simp [hd]
    · have hplain : (g.dropWhile isSpace).head?.any isPlain := by
        obtain ⟨d, t, ht⟩ := List.exists_cons_of_ne_nil hd
        rw [ht]
        apply hg d
        apply List.mem_cons_of_mem
        exact (List.dropWhile_suffix isSpace).subset (ht ▸ List.mem_cons_self)
      rw [if_neg hd]
      by_cases ht : g.takeWhile isSpace = []
      · simp [ht]
      · have hpos := List.length_pos_of_ne_nil ht
        obtain ⟨n, hn⟩ := Nat.exists_eq_add_one_of_ne_zero (Nat.ne_of_gt hpos)
        simp [ht, hplain, hn]

/-- The branch for spaces does not look behind an isolated run. -/
theorem spaceBranch_plain (s : List Nat) :
    spaceBranch isPlain (s.takeWhile isPlain) ++ s.dropWhile isPlain = spaceBranch isPlain s := by
  have hlast := upToLast_takeWhile (q := isNewline) plain_of_space s
  unfold spaceBranch
  rw [takeWhile_takeWhile_of_imp plain_of_space, dropWhile_takeWhile plain_of_space, ← hlast]
  cases upToLast isSpace isNewline (s.takeWhile isPlain) with
  | some r => rfl
  | none =>
    dsimp only [Option.map_none]
    rw [head?_takeWhile_any (fun _ h => h)]
    have hle : ((s.takeWhile isSpace).length - 1) ≤ (s.takeWhile isPlain).length := by
      rw [← takeWhile_takeWhile_of_imp plain_of_space]
      exact le_trans (Nat.sub_le _ _) (List.takeWhile_prefix _).length_le
    split
    · -- the space before the end of the run is in front of the isolated run
      rw [← List.drop_append_of_le_length hle, List.takeWhile_append_dropWhile]
    · rw [← dropWhile_takeWhile plain_of_space, dropWhile_takeWhile_append plain_of_space]

/-- **The patterns** take what the branches take when letters are those of ASCII. -/
theorem ruleRest_eq (s : List Nat) : ruleRest s = branches isAlpha isPlain s := by
  cases s with
  | nil => rfl
  | cons c s =>
    unfold ruleRest branches
    dsimp only
    rw [firstRest_isolated]
    by_cases hd : isDigit c
    · simp [hd, dropDigits]
    · by_cases hk : isCjk c
      · simp [hd, hk]
      · have hplain : isPlain c := by simp [isPlain, hd, hk]
        have hg : ∀ d ∈ c :: s.takeWhile isPlain, isPlain d := by
          intro d hd
          rcases List.mem_cons.mp hd with rfl | hd
          · exact hplain
          · exact List.all_eq_true.mp List.all_takeWhile d hd
        rw [if_neg hd, if_neg hk, if_neg hd, if_neg hk, List.takeWhile_cons_of_pos hplain,
          List.dropWhile_cons_of_pos hplain, generic, firstRest_cons, firstRest_cons, firstRest_cons,
          punctWordRule, Pat.rest_oneSeq, Pat.rest_plus_eq, wordRule_rest c hg, punctRule_rest,
          head?_takeWhile_any plain_of_alpha, head?_takeWhile_any plain_of_punct]
        -- runs end before the isolated run
        have hword := dropWhile_takeWhile_append plain_of_alpha s
        have hpunct : (((s.takeWhile isPlain).dropWhile isPunct).dropWhile isNewline) ++
            s.dropWhile isPlain = (s.dropWhile isPunct).dropWhile isNewline := by
          rw [dropWhile_takeWhile plain_of_punct]
          have hdrop : s.dropWhile isPlain = (s.dropWhile isPunct).dropWhile isPlain :=
            (dropWhile_dropWhile_of_imp plain_of_punct s).symm
          rw [hdrop, dropWhile_takeWhile_append fun d hd => plain_of_space d (space_of_newline d hd)]
        have hspace := spaceBranch_plain (c :: s)
        rw [List.takeWhile_cons_of_pos hplain, List.dropWhile_cons_of_pos hplain] at hspace
        by_cases hp : isPunct c
        · obtain ⟨ha, -, hs, hne⟩ := not_of_punct hp
          by_cases hh : s.head?.any isAlpha
          · simp [hp, hh, hword]
          · simp [hp, hh, ha, hne, hpunct]
        · by_cases ha : isAlpha c
          · simp [hp, ha, hword]
          · have hpw : ¬ (isPunct c ∧ s.head?.any isAlpha) := fun h => hp h.1
            simp only [if_neg hp, if_neg hpw, if_neg ha, Option.none_or]
            by_cases hn : ¬ isNewline c ∧ ¬ isPunct c ∧ s.head?.any isAlpha
            · simp only [if_pos hn, Option.some_or, hword]
            · simp only [if_neg hn, Option.none_or]
              by_cases h20 : c = 0x20 ∧ s.head?.any isPunct
              · simp only [if_pos h20, Option.some_or, hpunct]
              · simp only [if_neg h20, Option.none_or]
                by_cases hs : isSpace c
                · rw [spaceRules_rest c hs hg, if_pos hs]
                  exact hspace
                · rw [if_neg hs, firstRest_cons, firstRest_cons, firstRest_cons, newlineRule,
                    trailingSpaceRule, spaceRule, Pat.rest_upToLast space_of_newline,
                    Pat.rest_notBefore, Pat.rest_plus, if_neg hs, if_neg hs]
                  unfold upToLast
                  rw [if_neg hs]
                  rfl

/-! ### Where the branches differ -/

/-- Behind spaces, the code and the patterns differ on CJK, kana and control characters. -/
theorem joined_eq_plain_iff (h : isSpace c = false) :
    isJoined c = isPlain c ↔ (isCjk c || isControl c) = false := by
  unfold isJoined isLetter isPlain isControl
  rw [h]
  by_cases hk : isCjk c
  · simp [hk]
  · by_cases hd : isDigit c
    · obtain ⟨-, ha, hp, -⟩ := not_of_digit hd
      simp [hk, hd, ha, hp]
    · by_cases ha : isAlpha c
      · simp [hk, hd, ha]
      · by_cases hp : isPunct c <;> simp [hk, hd, ha, hp]

theorem spaceBranch_eq_iff (s : List Nat) :
    spaceBranch isJoined s = spaceBranch isPlain s ↔
      (decide (1 < (s.takeWhile isSpace).length) && !(s.takeWhile isSpace).any isNewline &&
        (s.dropWhile isSpace).head?.any fun d => isCjk d || isControl d) = false := by
  unfold spaceBranch
  cases hlast : upToLast isSpace isNewline s with
  | some r =>
    have hany : (s.takeWhile isSpace).any isNewline := by
      by_contra hnone
      obtain ⟨l, d, rfl, hd, hq, hl⟩ := upToLast_eq_some hlast
      apply hnone
      rw [List.any_eq_true]
      refine ⟨d, ?_, hq⟩
      rw [List.takeWhile_append_of_pos hl, List.takeWhile_cons_of_pos hd]
      simp
    simp [hany]
  | none =>
    dsimp only
    rw [upToLast_eq_none hlast]
    by_cases hone : 1 < (s.takeWhile isSpace).length
    · -- the last space stays or it does not
      have hne : s.drop ((s.takeWhile isSpace).length - 1) ≠ s.dropWhile isSpace := by
        intro heq
        have hlen := congrArg List.length heq
        have hsum := congrArg List.length (List.takeWhile_append_dropWhile (p := isSpace) (l := s))
        rw [List.length_append] at hsum
        rw [List.length_drop] at hlen
        omega
      have hhead := head?_dropWhile_any isSpace s
      cases hd : (s.dropWhile isSpace).head? with
      | none => simp
      | some d =>
        rw [hd, Option.any_some] at hhead
        have hiff := joined_eq_plain_iff hhead
        simp only [hone, true_and, decide_true, Bool.not_false, Bool.true_and, Option.any_some,
          ← hiff]
        cases hj : isJoined d <;> cases hp : isPlain d
        · simp
        · simpa using hne.symm
        · simpa using hne
        · simp
    · simp [hone]

theorem letter_run_iff (s : List Nat) :
    s.dropWhile isLetter = s.dropWhile isAlpha ↔ (s.dropWhile isAlpha).head?.any isCjk = false :=
  dropWhile_or_eq_iff isAlpha isCjk s

/-- **The code takes what the patterns take** where it does not run on. -/
theorem branches_eq_iff (s : List Nat) : branches isLetter isJoined s = ruleRest s ↔ runsOn s = false := by
  rw [ruleRest_eq]
  cases s with
  | nil => simp [branches, runsOn]
  | cons c s =>
    unfold branches runsOn
    dsimp only
    by_cases hd : isDigit c
    · obtain ⟨hk, ha, hp, hn, -⟩ := not_of_digit hd
      simp [hd, ha]
    · by_cases hk : isCjk c
      · obtain ⟨-, ha, -⟩ := not_of_cjk hk
        simp [hd, hk, ha]
      · have hletter : isLetter c = isAlpha c := by simp [isLetter, hk]
        rw [hletter]
        by_cases ha : isAlpha c
        · -- a word
          have hp := (not_of_alpha ha).1
          simp [hd, hk, ha, hp, letter_run_iff]
        · by_cases hp : isPunct c
          · obtain ⟨-, -, -, hne⟩ := not_of_punct hp
            by_cases hh : s.head?.any isAlpha <;> simp [hd, hk, ha, hp, hne]
          · by_cases hn : isNewline c
            · have hne : c ≠ 0x20 := by
                rintro rfl
                exact absurd hn (by decide)
              have hs := space_of_newline c hn
              have hrun : ((c :: s).takeWhile isSpace).any isNewline := by simp [hs, hn]
              have hbranch := (spaceBranch_eq_iff (c :: s)).mpr (by simp [hrun])
              simp [hd, hk, ha, hp, hn, hne, hs, hbranch]
            · have hhead : s.head?.any isLetter = (s.head?.any isAlpha || s.head?.any isCjk) := by
                cases s with
                | nil => rfl
                | cons d s => rfl
              by_cases hha : s.head?.any isAlpha
              · -- a word with a character before it
                simp [hd, hk, ha, hp, hn, hhead, hha, letter_run_iff]
              · by_cases hhk : s.head?.any isCjk
                · -- CJK or kana behind a space or a control character
                  obtain ⟨d, t, rfl⟩ : ∃ d t, s = d :: t := by
                    cases s with
                    | nil => exact absurd hhk (by simp)
                    | cons d t => exact ⟨d, t, rfl⟩
                  have hdk : isCjk d := hhk
                  obtain ⟨-, hda, hdp, -, hds⟩ := not_of_cjk hdk
                  have hdl : isLetter d := by simp [isLetter, hdk]
                  have hne : t.dropWhile isLetter ≠ d :: t := by
                    intro heq
                    have hlen := (List.dropWhile_suffix (l := t) isLetter).length_le
                    rw [heq, List.length_cons] at hlen
                    omega
                  by_cases hs : isSpace c
                  · have hspace : spaceBranch isPlain (c :: d :: t) = d :: t := by
                      simp [spaceBranch, upToLast, hs, hn, hds]
                    simp [hd, hk, ha, hp, hn, hdk, hda, hdp, hdl, hs, hspace, hne]
                  · simp [hd, hk, ha, hp, hn, hdk, hda, hdp, hdl, hs, hne]
                · by_cases h20 : c = 0x20 ∧ s.head?.any isPunct
                  · -- one space only
                    have hrun : s.takeWhile isSpace = [] := by
                      rw [takeWhile_eq_nil]
                      cases s with
                      | nil => rfl
                      | cons d s => exact (not_of_punct h20.2).2.2.1
                    have hlen : ((c :: s).takeWhile isSpace).length ≤ 1 := by
                      rw [List.takeWhile_cons, hrun]
                      split <;> simp
                    have hone : ¬ 1 < ((c :: s).takeWhile isSpace).length := by omega
                    obtain ⟨rfl, hh⟩ := h20
                    simp [hd, hk, ha, hp, hn, hhead, hha, hhk, hh, hone]
                  · by_cases hs : isSpace c
                    · have hiff := spaceBranch_eq_iff (c :: s)
                      simpa [hd, hk, ha, hp, hn, hhead, hha, hhk, h20, hs] using hiff
                    · simp [hd, hk, ha, hp, hn, hhead, hha, hhk, h20, hs]

/-! ### The pieces of the patterns -/

/-- A piece has CJK and kana characters only, or none. -/
def Unmixed (piece : List Nat) : Prop := (∃ c ∈ piece, isCjk c) → ∀ c ∈ piece, isCjk c

theorem dropDigits_split : ∀ (n : Nat) (s : List Nat), ∃ l, s = l ++ dropDigits n s ∧ ∀ c ∈ l, isDigit c := by
  intro n
  induction n with
  | zero => exact fun s => ⟨[], by cases s <;> rfl, fun c hc => absurd hc List.not_mem_nil⟩
  | succ n ih =>
    intro s
    cases s with
    | nil => exact ⟨[], rfl, fun c hc => absurd hc List.not_mem_nil⟩
    | cons d s =>
      unfold dropDigits
      split
      · rename_i hd
        obtain ⟨l, hl, hdig⟩ := ih s
        refine ⟨d :: l, congrArg (d :: ·) hl, ?_⟩
        intro c hc
        rcases List.mem_cons.mp hc with rfl | hc
        · exact hd
        · exact hdig c hc
      · exact ⟨[], rfl, fun c hc => absurd hc List.not_mem_nil⟩

theorem before_append (l r : List Nat) : before (l ++ r) r = l := by
  unfold before
  rw [List.length_append, Nat.add_sub_cancel, List.take_left]

theorem before_of_suffix (h : r <:+ s) : before s r ++ r = s := by
  obtain ⟨l, rfl⟩ := h
  rw [before_append]

/-- **The first piece** of the patterns: it has a character at least, and CJK and kana characters only, or
    none. -/
theorem ruleRest_cons (c : Nat) (s : List Nat) :
    ∃ l, s = l ++ ruleRest (c :: s) ∧ Unmixed (c :: l) := by
  -- a piece without them
  have hnone : ∀ l : List Nat, (∀ d ∈ c :: l, isCjk d = false) → Unmixed (c :: l) := by
    rintro l hl ⟨d, hd, hk⟩
    rw [hl d hd] at hk
    exact absurd hk Bool.false_ne_true
  unfold ruleRest
  dsimp only
  rw [firstRest_isolated]
  by_cases hd : isDigit c
  · obtain ⟨l, hl, hdig⟩ := dropDigits_split 2 s
    rw [if_pos hd]
    refine ⟨l, hl, hnone l fun d hmem => ?_⟩
    rcases List.mem_cons.mp hmem with rfl | hmem
    · exact (not_of_digit hd).1
    · exact (not_of_digit (hdig d hmem)).1
  · by_cases hk : isCjk c
    · rw [if_neg hd, if_pos hk]
      refine ⟨s.takeWhile isCjk, List.takeWhile_append_dropWhile.symm, fun _ d hmem => ?_⟩
      rcases List.mem_cons.mp hmem with rfl | hmem
      · exact hk
      · exact List.all_eq_true.mp List.all_takeWhile d hmem
    · have hplain : isPlain c := by simp [isPlain, hd, hk]
      rw [if_neg hd, if_neg hk]
      dsimp only
      cases hrest : firstRest generic ((c :: s).takeWhile isPlain) with
      | none =>
        refine ⟨[], rfl, hnone [] fun d hmem => ?_⟩
        rw [List.mem_singleton.mp hmem]
        exact (not_of_plain hplain).2
      | some r =>
        dsimp only
        have hpos := firstRest_length (by decide) hrest
        obtain ⟨l, hl⟩ := firstRest_suffix hrest
        rw [List.takeWhile_cons_of_pos hplain] at hl hpos
        rcases l with _ | ⟨d, l⟩
        · rw [List.nil_append] at hl
          rw [hl] at hpos
          exact absurd hpos (Nat.lt_irrefl _)
        · rw [List.cons_append, List.cons.injEq] at hl
          obtain ⟨rfl, hl⟩ := hl
          refine ⟨l, ?_, hnone l fun e hmem => ?_⟩
          · rw [List.dropWhile_cons_of_pos hplain, ← List.append_assoc, hl,
              List.takeWhile_append_dropWhile]
          · rcases List.mem_cons.mp hmem with rfl | hmem
            · exact (not_of_plain hplain).2
            · have hmem' : e ∈ s.takeWhile isPlain := hl ▸ List.mem_append_left r hmem
              exact (not_of_plain (List.all_eq_true.mp List.all_takeWhile e hmem')).2

end DS4.Tokenizer
