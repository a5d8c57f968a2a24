import DS4.Agent.DsmlParser

namespace DS4.Agent.Dsml

/-!
# Agent — closing tags

* `Spelling` — the accepted spellings of a closing tag; `closeTagAt_iff` — they are what is accepted.
* `closeTagAt_append` — more text does not change whether a closing tag is there.
* `firstClose` — the first closing tag; `findCloseTag_eq` — the search finds it.
-/

open DS4.Tokenizer DS4.Lib

/-! ### Spellings -/

variable {s t u name : Bytes} {i n : Nat}

/-- The accepted spellings of a closing tag. -/
def Spelling (name t : Bytes) : Prop :=
  ∃ b₁ bar b₂, (∀ c ∈ b₁, isBlank c = true) ∧ (bar = [] ∨ bar = BAR) ∧ (∀ c ∈ b₂, isBlank c = true) ∧
    t = CLOSE ++ name ++ b₁ ++ bar ++ b₂ ++ ['>'.toUInt8]

theorem dropWhile_blanks {b : Bytes} (hb : ∀ c ∈ b, isBlank c = true) {c : UInt8} (hc : isBlank c = false)
    (r : Bytes) : (b ++ c :: r).dropWhile isBlank = c :: r := by
  rw [List.dropWhile_append_of_pos hb, List.dropWhile_cons, if_neg (by rw [hc]; exact nofun)]

/-- Blanks, a bar or none, and blanks again. -/
theorem skip_spelling {b₁ bar b₂ : Bytes} (h₁ : ∀ c ∈ b₁, isBlank c = true) (hbar : bar = [] ∨ bar = BAR)
    (h₂ : ∀ c ∈ b₂, isBlank c = true) (r : Bytes) :
    let p := (b₁ ++ bar ++ b₂ ++ '>'.toUInt8 :: r).dropWhile isBlank
    (if BAR.isPrefixOf p then p.drop BAR.length else p).dropWhile isBlank = '>'.toUInt8 :: r := by
  have hgt : isBlank '>'.toUInt8 = false := by decide
  rcases hbar with rfl | rfl
  · have hall : ∀ c ∈ b₁ ++ [] ++ b₂, isBlank c = true := by
      intro c hc
      rw [List.append_nil] at hc
      exact (List.mem_append.mp hc).elim (h₁ c) (h₂ c)
    have hno : ¬ BAR.isPrefixOf ('>'.toUInt8 :: r) = true := by
      rw [List.isPrefixOf_iff_prefix]
      rintro ⟨x, hx⟩
      exact absurd (List.cons.inj hx).1 (by decide)
    dsimp only
    rw [dropWhile_blanks hall hgt, if_neg hno]
    exact @dropWhile_blanks [] nofun _ hgt r
  · obtain ⟨c, bar', hcons, hc⟩ : ∃ c bar', BAR = c :: bar' ∧ isBlank c = false := ⟨_, _, rfl, by decide⟩
    have hskip : (b₁ ++ BAR ++ b₂ ++ '>'.toUInt8 :: r).dropWhile isBlank = BAR ++ (b₂ ++ '>'.toUInt8 :: r) := by
      rw [List.append_assoc, List.append_assoc, hcons, List.cons_append]
      exact dropWhile_blanks h₁ hc _
    dsimp only
    rw [hskip, if_pos (List.isPrefixOf_iff_prefix.mpr (List.prefix_append _ _)), List.drop_left]
    exact dropWhile_blanks h₂ hgt r

/-- **A closing tag** is an accepted spelling. -/
theorem closeTagAt_iff : closeTagAt s name = some n ↔ ∃ t r, s = t ++ r ∧ Spelling name t ∧ n = t.length := by
  constructor
  · intro h
    unfold closeTagAt at h
    by_cases hpre : (CLOSE ++ name).isPrefixOf s = true
    swap
    · rw [if_neg hpre] at h
      exact absurd h nofun
    rw [if_pos hpre] at h
    obtain ⟨s₁, rfl⟩ := List.isPrefixOf_iff_prefix.mp hpre
    rw [List.drop_left] at h
    -- what each scan skips
    have hsplit₁ := (List.takeWhile_append_dropWhile (p := isBlank) (l := s₁)).symm
    have hall₁ := List.all_takeWhile (l := s₁) (p := isBlank)
    generalize s₁.takeWhile isBlank = b₁ at hsplit₁ hall₁
    generalize s₁.dropWhile isBlank = p₁ at h hsplit₁
    obtain ⟨bar, p₂, hbar, hp₁, hif⟩ : ∃ bar p₂, (bar = [] ∨ bar = BAR) ∧ p₁ = bar ++ p₂ ∧
        (if BAR.isPrefixOf p₁ then p₁.drop BAR.length else p₁) = p₂ := by
      by_cases hbar : BAR.isPrefixOf p₁ = true
      · obtain ⟨p₂, rfl⟩ := List.isPrefixOf_iff_prefix.mp hbar
        exact ⟨BAR, p₂, Or.inr rfl, rfl, by rw [if_pos hbar, List.drop_left]⟩
      · exact ⟨[], p₁, Or.inl rfl, rfl, if_neg hbar⟩
    dsimp only at h
    rw [hif] at h
    have hsplit₂ := (List.takeWhile_append_dropWhile (p := isBlank) (l := p₂)).symm
    have hall₂ := List.all_takeWhile (l := p₂) (p := isBlank)
    generalize p₂.takeWhile isBlank = b₂ at hsplit₂ hall₂
    generalize p₂.dropWhile isBlank = p₃ at h hsplit₂
    split at h
    swap
    · exact absurd h nofun
    rename_i hgt
    obtain ⟨c, r, rfl⟩ : ∃ c r, p₃ = c :: r := by
      cases p₃ with
      | nil => exact absurd hgt nofun
      | cons c r => exact ⟨c, r, rfl⟩
    obtain rfl := Option.some.inj hgt
    have hn := Option.some.inj h
    refine ⟨CLOSE ++ name ++ b₁ ++ bar ++ b₂ ++ ['>'.toUInt8], r, ?_, ⟨b₁, bar, b₂, List.all_eq_true.mp hall₁, hbar,
      List.all_eq_true.mp hall₂, rfl⟩, ?_⟩
    · rw [hsplit₁, hp₁, hsplit₂]
      simp only [List.append_assoc]
      rfl
    · rw [← hn, hsplit₁, hp₁, hsplit₂]
      simp only [List.length_append, List.length_cons, List.length_nil]
      omega
  · rintro ⟨_, r, rfl, ⟨b₁, bar, b₂, h₁, hbar, h₂, rfl⟩, rfl⟩
    have hcat : CLOSE ++ name ++ b₁ ++ bar ++ b₂ ++ ['>'.toUInt8] ++ r =
        CLOSE ++ name ++ (b₁ ++ bar ++ b₂ ++ '>'.toUInt8 :: r) := by
      simp only [List.append_assoc]
      rfl
    unfold closeTagAt
    rw [if_pos (List.isPrefixOf_iff_prefix.mpr (hcat ▸ List.prefix_append _ _)), hcat, List.drop_left]
    dsimp only
    rw [skip_spelling h₁ hbar h₂ r, List.head?_cons, if_pos rfl]
    refine congrArg some ?_
    simp only [List.length_append, List.length_cons, List.length_nil]
    omega

/-- A spelling ends with its only `>`. -/
theorem Spelling.gt (h : Spelling name t) (hname : '>'.toUInt8 ∉ name) :
    ∃ u, t = u ++ ['>'.toUInt8] ∧ '>'.toUInt8 ∉ u := by
  obtain ⟨b₁, bar, b₂, h₁, hbar, h₂, rfl⟩ := h
  refine ⟨_, rfl, ?_⟩
  have hblank : ∀ b : Bytes, (∀ c ∈ b, isBlank c = true) → '>'.toUInt8 ∉ b := fun b hb hmem =>
    absurd (hb _ hmem) (by decide)
  have hopen : '>'.toUInt8 ∉ CLOSE := by decide
  have hbar' : '>'.toUInt8 ∉ bar := by
    rcases hbar with rfl | rfl <;> decide
  simp only [List.mem_append, not_or]
  exact ⟨⟨⟨⟨hopen, hname⟩, hblank b₁ h₁⟩, hbar'⟩, hblank b₂ h₂⟩

/-- A spelling starts with its only `<`. -/
theorem Spelling.lt (h : Spelling name t) (hname : '<'.toUInt8 ∉ name) :
    ∃ u, t = '<'.toUInt8 :: u ∧ '<'.toUInt8 ∉ u := by
  obtain ⟨b₁, bar, b₂, h₁, hbar, h₂, rfl⟩ := h
  refine ⟨CLOSE.tail ++ name ++ b₁ ++ bar ++ b₂ ++ ['>'.toUInt8], rfl, ?_⟩
  have hblank : ∀ b : Bytes, (∀ c ∈ b, isBlank c = true) → '<'.toUInt8 ∉ b := fun b hb hmem =>
    absurd (hb _ hmem) (by decide)
  have hopen : '<'.toUInt8 ∉ CLOSE.tail := by decide
  have hbar' : '<'.toUInt8 ∉ bar := by
    rcases hbar with rfl | rfl <;> decide
  simp only [List.mem_append, not_or]
  exact ⟨⟨⟨⟨⟨hopen, hname⟩, hblank b₁ h₁⟩, hbar'⟩, hblank b₂ h₂⟩, by decide⟩

theorem closeTagAt_le (h : closeTagAt s name = some n) : n ≤ s.length := by
  obtain ⟨t, r, rfl, -, rfl⟩ := (closeTagAt_iff).mp h
  rw [List.length_append]
  exact Nat.le_add_right _ _

/-- The first of some byte splits a text in one way. -/
theorem split_at_first {c : UInt8} {a b a' b' : Bytes} (h : a ++ c :: b = a' ++ c :: b') (ha : c ∉ a)
    (ha' : c ∉ a') : a = a' ∧ b = b' := by
  have hwhile : ∀ x y : Bytes, c ∉ x → (x ++ c :: y).takeWhile (· ≠ c) = x := by
    intro x y hx
    have hall : ∀ d ∈ x, decide (d ≠ c) = true := fun d hd => decide_eq_true fun heq => hx (heq ▸ hd)
    rw [List.takeWhile_append_of_pos hall, List.takeWhile_cons, if_neg (by simp), List.append_nil]
  have heq : a = a' := by
    rw [← hwhile a b ha, h, hwhile a' b' ha']
  subst heq
  exact ⟨rfl, (List.cons.inj (List.append_cancel_left h)).2⟩

/-- **More text** does not change whether a closing tag is there, where the text holds a `>`. -/
theorem closeTagAt_append (hname : '>'.toUInt8 ∉ name) (hgt : '>'.toUInt8 ∈ s) (t : Bytes) :
    closeTagAt (s ++ t) name = closeTagAt s name := by
  refine Option.ext fun n => ?_
  rw [closeTagAt_iff, closeTagAt_iff]
  constructor
  · rintro ⟨x, r, heq, hx, rfl⟩
    obtain ⟨u, rfl, hu⟩ := hx.gt hname
    -- the spelling ends with the first `>` of the text
    obtain ⟨a, b, rfl, ha⟩ := List.eq_append_cons_of_mem hgt
    rw [List.append_assoc, List.append_assoc] at heq
    obtain ⟨rfl, -⟩ := split_at_first heq ha hu
    exact ⟨a ++ ['>'.toUInt8], b, by rw [List.append_assoc]; rfl, hx, rfl⟩
  · rintro ⟨x, r, rfl, hx, rfl⟩
    exact ⟨x, r ++ t, List.append_assoc _ _ _, hx, rfl⟩

theorem gt_mem_of_closeTagAt (hname : '>'.toUInt8 ∉ name) (h : closeTagAt s name = some n) : '>'.toUInt8 ∈ s := by
  obtain ⟨t, r, rfl, ht, -⟩ := (closeTagAt_iff).mp h
  obtain ⟨u, rfl, -⟩ := ht.gt hname
  exact List.mem_append_left r (List.mem_append_right u List.mem_cons_self)

/-- A closing tag ends before the first NUL. -/
theorem closeTagAt_cstr (hname : 0 ∉ name) (s : Bytes) : closeTagAt (cstr s) name = closeTagAt s name := by
  refine Option.ext fun n => ?_
  rw [closeTagAt_iff, closeTagAt_iff]
  have hsplit : cstr s ++ s.dropWhile (fun c => c ≠ 0) = s := List.takeWhile_append_dropWhile
  constructor
  · rintro ⟨x, r, heq, hx, rfl⟩
    refine ⟨x, r ++ s.dropWhile (fun c => c ≠ 0), ?_, hx, rfl⟩
    rw [← List.append_assoc, ← heq, hsplit]
  · rintro ⟨x, r, rfl, hx, rfl⟩
    have hzero : ∀ c ∈ x, decide (c ≠ 0) = true := by
      obtain ⟨b₁, bar, b₂, h₁, hbar, h₂, rfl⟩ := hx
      have hblank : ∀ b : Bytes, (∀ c ∈ b, isBlank c = true) → ∀ c ∈ b, decide (c ≠ 0) = true := by
        intro b hb c hc
        refine decide_eq_true ?_
        rintro rfl
        exact absurd (hb 0 hc) (by decide)
      have hbar' : ∀ c ∈ bar, decide (c ≠ 0) = true := by
        rcases hbar with rfl | rfl <;> decide +kernel
      have hname' : ∀ c ∈ name, decide (c ≠ 0) = true := fun c hc =>
        decide_eq_true fun heq => hname (heq ▸ hc)
      simp only [List.forall_mem_append]
      exact ⟨⟨⟨⟨⟨by decide +kernel, hname'⟩, hblank b₁ h₁⟩, hbar'⟩, hblank b₂ h₂⟩, by decide +kernel⟩
    refine ⟨x, cstr r, ?_, hx, rfl⟩
    exact List.takeWhile_append_of_pos hzero

/-! ### The first closing tag -/

/-- The first position of a closing tag. -/
def firstClose (name : Bytes) : Bytes → Option (Nat × Nat)
  | []     => none
  | c :: s =>
    match closeTagAt (c :: s) name with
    | some n => some (0, n)
    | none   => (firstClose name s).map fun r => (r.1 + 1, r.2)

theorem firstClose_gt (hname : '>'.toUInt8 ∉ name) {r : Nat × Nat} (h : firstClose name s = some r) :
    '>'.toUInt8 ∈ s ∧ r.1 + r.2 ≤ s.length := by
  induction s generalizing r with
  | nil => exact absurd h nofun
  | cons c s ih =>
    unfold firstClose at h
    cases hc : closeTagAt (c :: s) name with
    | some n =>
      rw [hc] at h
      obtain rfl := Option.some.inj h
      exact ⟨gt_mem_of_closeTagAt hname hc, by rw [Nat.zero_add]; exact closeTagAt_le hc⟩
    | none =>
      rw [hc] at h
      obtain ⟨r', hr', rfl⟩ := Option.map_eq_some_iff.mp h
      obtain ⟨hmem, hle⟩ := ih hr'
      exact ⟨List.mem_cons_of_mem c hmem, by rw [List.length_cons]; show r'.1 + 1 + r'.2 ≤ _; omega⟩

/-- **More text** does not move the first closing tag. -/
theorem firstClose_append (hname : '>'.toUInt8 ∉ name) {r : Nat × Nat} (h : firstClose name s = some r) (t : Bytes) :
    firstClose name (s ++ t) = some r := by
  induction s generalizing r with
  | nil => exact absurd h nofun
  | cons c s ih =>
    have hgt := (firstClose_gt hname h).1
    unfold firstClose at h
    rw [List.cons_append, firstClose, ← List.cons_append, closeTagAt_append hname hgt]
    cases hc : closeTagAt (c :: s) name with
    | some n =>
      rw [hc] at h
      exact h
    | none =>
      rw [hc] at h
      obtain ⟨r', hr', rfl⟩ := Option.map_eq_some_iff.mp h
      dsimp only
      rw [ih hr']
      rfl

/-- The text up to the end of the first closing tag. -/
theorem firstClose_take {r : Nat × Nat} (h : firstClose name s = some r) :
    firstClose name (s.take (r.1 + r.2)) = some r := by
  induction s generalizing r with
  | nil => exact absurd h nofun
  | cons c s ih =>
    unfold firstClose at h
    cases hc : closeTagAt (c :: s) name with
    | some n =>
      rw [hc] at h
      obtain rfl := Option.some.inj h
      obtain ⟨t, r, heq, ht, rfl⟩ := (closeTagAt_iff).mp hc
      have hself : closeTagAt t name = some t.length := (closeTagAt_iff).mpr ⟨t, [], (List.append_nil t).symm, ht, rfl⟩
      rw [Nat.zero_add, heq, List.take_left]
      cases t with
      | nil => exact absurd hself (by unfold closeTagAt; exact nofun)
      | cons d t =>
        unfold firstClose
        rw [hself]
    | none =>
      rw [hc] at h
      obtain ⟨r', hr', rfl⟩ := Option.map_eq_some_iff.mp h
      have hadd : r'.1 + 1 + r'.2 = r'.1 + r'.2 + 1 := Nat.succ_add r'.1 r'.2
      -- a tag in a part of the text is one in the text
      have hnone : closeTagAt (c :: s.take (r'.1 + r'.2)) name = none := by
        cases hpart : closeTagAt (c :: s.take (r'.1 + r'.2)) name with
        | none => rfl
        | some n =>
          obtain ⟨t, r, heq, ht, rfl⟩ := (closeTagAt_iff).mp hpart
          have hwhole : c :: s = t ++ (r ++ s.drop (r'.1 + r'.2)) := by
            rw [← List.append_assoc, ← heq, List.cons_append, List.take_append_drop]
          exact absurd (hc.symm.trans ((closeTagAt_iff).mpr ⟨t, _, hwhole, ht, rfl⟩)) nofun
      show firstClose name ((c :: s).take (r'.1 + 1 + r'.2)) = _
      rw [hadd, List.take_succ_cons, firstClose, hnone]
      dsimp only
      rw [ih hr']
      rfl

theorem firstClose_cstr_append (hname : '>'.toUInt8 ∉ name) {r : Nat × Nat} (h : firstClose name (cstr s) = some r)
    (t : Bytes) : firstClose name (cstr (s ++ t)) = some r := by
  unfold cstr at h ⊢
  rw [List.takeWhile_append]
  split_ifs with hall
  · rw [(List.takeWhile_sublist _).eq_of_length hall] at h
    exact firstClose_append hname h _
  · exact h

/-- Positions without a closing tag. -/
theorem firstClose_skip {k : Nat} (h : ∀ j < k, closeTagAt (s.drop j) name = none) (hk : k ≤ s.length) :
    firstClose name s = (firstClose name (s.drop k)).map fun r => (k + r.1, r.2) := by
  induction s generalizing k with
  | nil =>
    rw [List.drop_nil]
    rfl
  | cons c s ih =>
    cases k with
    | zero =>
      rw [List.drop_zero]
      cases firstClose name (c :: s) with
      | none => rfl
      | some r => exact congrArg some (Prod.ext (Nat.zero_add _).symm rfl)
    | succ k =>
      have hhead : closeTagAt (c :: s) name = none := h 0 (Nat.succ_pos k)
      have hrest := @ih k (fun j hj => h (j + 1) (Nat.succ_lt_succ hj)) (Nat.le_of_succ_le_succ hk)
      rw [firstClose, hhead, List.drop_succ_cons]
      dsimp only
      rw [hrest, Option.map_map]
      cases firstClose name (s.drop k) with
      | none => rfl
      | some r => exact congrArg some (Prod.ext (show k + r.1 + 1 = k + 1 + r.1 by omega) rfl)

/-- A closing tag starts as every closing tag does. -/
theorem close_starts (h : closeTagAt s name = some n) : CLOSE <+: s := by
  obtain ⟨t, r, rfl, ⟨b₁, bar, b₂, -, -, -, rfl⟩, -⟩ := (closeTagAt_iff).mp h
  simp only [List.append_assoc]
  exact List.prefix_append _ _

theorem cstr_drop {k : Nat} (h : k ≤ (cstr s).length) : cstr (s.drop k) = (cstr s).drop k := takeWhile_drop h

theorem findCloseTagLoop_eq (hname : 0 ∉ name) {fuel : Nat} (hfuel : s.length < fuel) :
    findCloseTagLoop name fuel s = firstClose name (cstr s) := by
  induction fuel generalizing s with
  | zero => exact absurd hfuel (Nat.not_lt_zero _)
  | succ fuel ih =>
    have hle : (cstr s).length ≤ s.length := (List.takeWhile_sublist _).length_le
    unfold findCloseTagLoop strstr
    cases hk : findSub CLOSE (cstr s) with
    | none =>
      -- no closing tag starts anywhere
      have hnone : ∀ j < (cstr s).length, closeTagAt ((cstr s).drop j) name = none := by
        intro j hj
        cases hc : closeTagAt ((cstr s).drop j) name with
        | none => rfl
        | some n => exact absurd (close_starts hc) ((findSub_eq_none_iff).mp hk j (Nat.le_of_lt hj))
      rw [firstClose_skip hnone (Nat.le_refl _), List.drop_length]
      rfl
    | some k =>
      obtain ⟨hkle, -, hmin⟩ := (findSub_eq_some_iff).mp hk
      have hfit := findSub_length_le hk
      have hlen : CLOSE.length = 12 := by decide
      have hnone : ∀ j < k, closeTagAt ((cstr s).drop j) name = none := by
        intro j hj
        cases hc : closeTagAt ((cstr s).drop j) name with
        | none => rfl
        | some n => exact absurd (close_starts hc) (hmin j hj)
      have hat : closeTagAt ((cstr s).drop k) name = closeTagAt (s.drop k) name := by
        rw [← cstr_drop hkle, closeTagAt_cstr hname]
      obtain ⟨c, t, hct⟩ : ∃ c t, (cstr s).drop k = c :: t := by
        refine List.exists_cons_of_ne_nil fun hnil => ?_
        have hzero := congrArg List.length hnil
        rw [List.length_drop, List.length_nil] at hzero
        omega
      rw [firstClose_skip hnone hkle]
      dsimp only
      cases hc : closeTagAt (s.drop k) name with
      | some n =>
        rw [hct] at hat ⊢
        rw [firstClose, hat, hc]
        rfl
      | none =>
        have htail : t = cstr (s.drop (k + 1)) := by
          rw [cstr_drop (by omega), ← List.drop_drop, hct]
          rfl
        have hdrop : (s.drop (k + 1)).length < fuel := by
          rw [List.length_drop]
          omega
        rw [hct] at hat ⊢
        rw [firstClose, hat, hc]
        dsimp only
        rw [ih hdrop, ← htail, Option.map_map]
        cases firstClose name t with
        | none => rfl
        | some r => exact congrArg some (Prod.ext (show k + 1 + r.1 = k + (r.1 + 1) by omega) rfl)

/-- **The search** finds the first closing tag before the first NUL. -/
theorem findCloseTag_eq (hname : 0 ∉ name) (s : Bytes) : findCloseTag s name = firstClose name (cstr s) :=
  findCloseTagLoop_eq hname (Nat.lt_succ_self _)

end DS4.Agent.Dsml
