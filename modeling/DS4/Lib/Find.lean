import Mathlib.Data.List.Basic
import Mathlib.Data.List.Infix
import Mathlib.Data.Nat.Find

namespace DS4.Lib

/-!
# First and last occurrences in a list

* `findSub pat s` — the offset of the first occurrence of `pat` in `s`.
* `findSub_eq_some_iff`, `findSub_eq_none_iff` — its specification.
* `findSub_append`, `findSub_append_left` — occurrences in a longer text.
* `findSub_stop`, `findSub_ends` — words that end with a stop.
* `findSub_drop_some`, `findSub_take_some`, … — a later start, and a text that is cut.
* `findLast pat s`, `findLast_spec` — the offset of the last occurrence.
* `foldl_choice`, `foldl_forall` — folds that keep one of their arguments.
-/

variable {α : Type*}

/-- A fold that keeps one of its two arguments gives the start or an element. -/
theorem foldl_choice {f : α → α → α} (hf : ∀ b c, f b c = b ∨ f b c = c) (cs : List α) (b : α) :
    cs.foldl f b = b ∨ cs.foldl f b ∈ cs := by
  induction cs generalizing b with
  | nil => exact Or.inl rfl
  | cons c cs ih =>
    rw [List.foldl_cons]
    rcases ih (f b c) with heq | hmem
    · rw [heq]
      rcases hf b c with hb | hc
      · exact Or.inl hb
      · rw [hc]
        exact Or.inr List.mem_cons_self
    · exact Or.inr (List.mem_cons_of_mem c hmem)

/-- A fold that keeps its arguments from having `p` unless one of them has it. -/
theorem foldl_forall {f : α → α → α} {p : α → Prop} (hf : ∀ b c, p (f b c) → p b ∧ p c)
    {cs : List α} {b : α} (h : p (cs.foldl f b)) : p b ∧ ∀ c ∈ cs, p c := by
  induction cs generalizing b with
  | nil => exact ⟨h, fun c hc => absurd hc List.not_mem_nil⟩
  | cons c cs ih =>
    obtain ⟨hbc, hcs⟩ := ih h
    obtain ⟨hb, hc⟩ := hf b c hbc
    exact ⟨hb, List.forall_mem_cons.mpr ⟨hc, hcs⟩⟩

/-- A prefix of a text occurs in the longer text at the same places. -/
theorem prefix_drop_append {pat s t : List α} {i : Nat} (hi : i ≤ s.length)
    (h : pat <+: s.drop i) : pat <+: (s ++ t).drop i := by
  rw [List.drop_append_of_le_length hi]
  exact h.trans (List.prefix_append _ _)

/-- An occurrence that ends inside `s` is an occurrence in `s`. -/
theorem prefix_drop_of_append {pat s t : List α} {i : Nat} (hi : i + pat.length ≤ s.length)
    (h : pat <+: (s ++ t).drop i) : pat <+: s.drop i := by
  rw [List.drop_append_of_le_length (by omega)] at h
  exact List.prefix_of_prefix_length_le h (List.prefix_append _ _)
    (by rw [List.length_drop]; omega)

/-- Predicates that agree on a list find the same element. -/
theorem find?_eq_of_forall {p q : α → Bool} {l : List α} (h : ∀ a ∈ l, p a = q a) :
    l.find? p = l.find? q := by
  induction l with
  | nil => rfl
  | cons a l ih =>
    rw [List.find?_cons, List.find?_cons, h a List.mem_cons_self,
      ih (fun b hb => h b (List.mem_cons_of_mem a hb))]

/-- How far the elements satisfy `p`. -/
theorem length_takeWhile_eq_iff {p : α → Bool} {l : List α} {k : Nat} (hk : k ≤ l.length) :
    (l.takeWhile p).length = k ↔
      (∀ j < k, ∀ a, l[j]? = some a → p a = true) ∧
        (k = l.length ∨ ∃ a, l[k]? = some a ∧ p a = false) := by
  induction l generalizing k with
  | nil =>
    obtain rfl : k = 0 := Nat.le_zero.mp hk
    exact ⟨fun _ => ⟨fun j hj => absurd hj (Nat.not_lt_zero j), Or.inl rfl⟩, fun _ => rfl⟩
  | cons a l ih =>
    rw [List.takeWhile_cons]
    by_cases ha : p a = true
    · rw [if_pos ha, List.length_cons]
      cases k with
      | zero =>
        constructor
        · intro h
          omega
        · rintro ⟨-, h | ⟨b, hb, hpb⟩⟩
          · exact absurd h (by simp)
          · obtain rfl := Option.some.inj hb
            rw [ha] at hpb
            exact absurd hpb (by simp)
      | succ k =>
        rw [Nat.succ_inj, ih (Nat.le_of_succ_le_succ hk), List.length_cons, Nat.succ_inj]
        constructor
        · rintro ⟨hall, hend⟩
          refine ⟨fun j hj b hb => ?_, hend⟩
          cases j with
          | zero =>
            obtain rfl := Option.some.inj hb
            exact ha
          | succ j => exact hall j (by omega) b hb
        · rintro ⟨hall, hend⟩
          exact ⟨fun j hj b hb => hall (j + 1) (by omega) b hb, hend⟩
    · rw [if_neg ha, List.length_nil]
      constructor
      · rintro rfl
        exact ⟨fun j hj => absurd hj (Nat.not_lt_zero j), Or.inr ⟨a, rfl, Bool.eq_false_iff.mpr ha⟩⟩
      · rintro ⟨hall, -⟩
        by_contra hne
        exact ha (hall 0 (by omega) a rfl)

variable [DecidableEq α]

/-- The offset of the first occurrence of `pat`. -/
def findSub (pat : List α) : List α → Option Nat
  | []      => if pat.isPrefixOf [] then some 0 else none
  | c :: cs => if pat.isPrefixOf (c :: cs) then some 0 else (findSub pat cs).map (· + 1)

/-- The offset of the last occurrence of `pat`. -/
def findLast (pat : List α) : List α → Option Nat
  | []      => if pat.isPrefixOf [] then some 0 else none
  | c :: cs =>
    match findLast pat cs with
    | some i => some (i + 1)
    | none   => if pat.isPrefixOf (c :: cs) then some 0 else none

/-- **First occurrence.** -/
theorem findSub_eq_some_iff {pat s : List α} {i : Nat} :
    findSub pat s = some i ↔
      i ≤ s.length ∧ pat <+: s.drop i ∧ ∀ j < i, ¬ pat <+: s.drop j := by
  induction s generalizing i with
  | nil =>
    unfold findSub
    split
    · rename_i h
      rw [List.isPrefixOf_iff_prefix] at h
      constructor
      · rintro ⟨⟩
        exact ⟨le_refl _, h, by omega⟩
      · rintro ⟨hi, -, -⟩
        rw [List.length_nil] at hi
        rw [Nat.le_zero.mp hi]
    · rename_i h
      rw [List.isPrefixOf_iff_prefix] at h
      constructor
      · rintro ⟨⟩
      · rintro ⟨-, hp, -⟩
        rw [List.drop_nil] at hp
        exact absurd hp h
  | cons c cs ih =>
    unfold findSub
    split
    · rename_i h
      rw [List.isPrefixOf_iff_prefix] at h
      constructor
      · rintro ⟨⟩
        exact ⟨Nat.zero_le _, h, by omega⟩
      · rintro ⟨-, -, hmin⟩
        by_contra hne
        have hpos : 0 < i := by
          by_contra hz
          exact hne (by rw [Nat.eq_zero_of_not_pos hz])
        exact hmin 0 hpos h
    · rename_i h
      rw [List.isPrefixOf_iff_prefix] at h
      cases i with
      | zero =>
        constructor
        · intro hm
          obtain ⟨j, -, hj⟩ := Option.map_eq_some_iff.mp hm
          omega
        · rintro ⟨-, hp, -⟩
          exact absurd hp h
      | succ i =>
        have hmap : (findSub pat cs).map (· + 1) = some (i + 1) ↔ findSub pat cs = some i := by
          cases findSub pat cs <;> simp
        rw [hmap, ih]
        constructor
        · rintro ⟨hi, hp, hmin⟩
          refine ⟨by simpa using hi, hp, fun j hj => ?_⟩
          cases j with
          | zero => exact h
          | succ j => exact hmin j (by omega)
        · rintro ⟨hi, hp, hmin⟩
          exact ⟨by simpa using hi, hp, fun j hj => hmin (j + 1) (by omega)⟩

/-- **No occurrence.** -/
theorem findSub_eq_none_iff {pat s : List α} :
    findSub pat s = none ↔ ∀ i ≤ s.length, ¬ pat <+: s.drop i := by
  constructor
  · intro h i hi hp
    -- the least occurrence would have been found
    have hex : ∃ i, i ≤ s.length ∧ pat <+: s.drop i := ⟨i, hi, hp⟩
    have hmin := Nat.find_spec hex
    have hsome : findSub pat s = some (Nat.find hex) :=
      (findSub_eq_some_iff).mpr ⟨hmin.1, hmin.2, fun j hj hj' =>
        Nat.find_min hex hj ⟨by omega, hj'⟩⟩
    rw [h] at hsome
    cases hsome
  · intro h
    cases hf : findSub pat s with
    | none => rfl
    | some i =>
      obtain ⟨hi, hp, -⟩ := (findSub_eq_some_iff).mp hf
      exact absurd hp (h i hi)

/-- **Last occurrence.** -/
theorem findLast_spec (pat s : List α) :
    (findLast pat s = none → ∀ i ≤ s.length, ¬ pat <+: s.drop i) ∧
      ∀ i, findLast pat s = some i →
        i ≤ s.length ∧ pat <+: s.drop i ∧ ∀ j ≤ s.length, i < j → ¬ pat <+: s.drop j := by
  induction s with
  | nil =>
    have hzero : ∀ i ≤ ([] : List α).length, ([] : List α).drop i = [] := fun i _ => List.drop_nil
    by_cases hp : pat.isPrefixOf [] = true
    · refine ⟨fun h => ?_, fun i h => ?_⟩
      · rw [findLast, if_pos hp] at h
        exact absurd h nofun
      · rw [findLast, if_pos hp] at h
        obtain rfl := Option.some.inj h
        exact ⟨le_refl _, List.isPrefixOf_iff_prefix.mp hp, fun j hj hlt => absurd hj (Nat.not_le_of_lt hlt)⟩
    · refine ⟨fun _ i hi hat => ?_, fun i h => ?_⟩
      · rw [hzero i hi] at hat
        exact hp (List.isPrefixOf_iff_prefix.mpr hat)
      · rw [findLast, if_neg hp] at h
        exact absurd h nofun
  | cons c cs ih =>
    cases hlast : findLast pat cs with
    | some k =>
      obtain ⟨hk, hat, hmax⟩ := ih.2 k hlast
      have hsome : findLast pat (c :: cs) = some (k + 1) := by rw [findLast, hlast]
      refine ⟨fun h => absurd (hsome.symm.trans h) nofun, fun i h => ?_⟩
      obtain rfl := Option.some.inj (hsome.symm.trans h)
      refine ⟨Nat.succ_le_succ hk, hat, fun j hj hlt => ?_⟩
      obtain ⟨j, rfl⟩ : ∃ n, j = n + 1 := ⟨j - 1, by omega⟩
      exact hmax j (Nat.le_of_succ_le_succ hj) (by omega)
    | none =>
      have hnone := ih.1 hlast
      have hbehind : ∀ j ≤ (c :: cs).length, 0 < j → ¬ pat <+: (c :: cs).drop j := by
        intro j hj hpos
        obtain ⟨j, rfl⟩ : ∃ n, j = n + 1 := ⟨j - 1, by omega⟩
        exact hnone j (Nat.le_of_succ_le_succ hj)
      by_cases hp : pat.isPrefixOf (c :: cs) = true
      · have hsome : findLast pat (c :: cs) = some 0 := by rw [findLast, hlast, if_pos hp]
        refine ⟨fun h => absurd (hsome.symm.trans h) nofun, fun i h => ?_⟩
        obtain rfl := Option.some.inj (hsome.symm.trans h)
        exact ⟨Nat.zero_le _, List.isPrefixOf_iff_prefix.mp hp, hbehind⟩
      · have heq : findLast pat (c :: cs) = none := by rw [findLast, hlast, if_neg hp]
        refine ⟨fun _ i hi hat => ?_, fun i h => absurd (heq.symm.trans h) nofun⟩
        by_cases hpos : 0 < i
        · exact hbehind i hi hpos hat
        · rw [Nat.eq_zero_of_not_pos hpos, List.drop_zero] at hat
          exact hp (List.isPrefixOf_iff_prefix.mpr hat)

/-- The first occurrence fits into the text. -/
theorem findSub_length_le {pat s : List α} {i : Nat} (h : findSub pat s = some i) :
    i + pat.length ≤ s.length := by
  obtain ⟨hi, hp, -⟩ := (findSub_eq_some_iff).mp h
  have := hp.length_le
  rw [List.length_drop] at this
  omega

/-- **More text** does not move the first occurrence. -/
theorem findSub_append {pat s : List α} {i : Nat} (h : findSub pat s = some i) (t : List α) :
    findSub pat (s ++ t) = some i := by
  have hlen := findSub_length_le h
  obtain ⟨hi, hp, hmin⟩ := (findSub_eq_some_iff).mp h
  refine (findSub_eq_some_iff).mpr ⟨by rw [List.length_append]; omega, prefix_drop_append hi hp, ?_⟩
  intro j hj hp'
  exact hmin j hj (prefix_drop_of_append (by omega) hp')

/-- A first occurrence in the longer text that ends inside `s` is the first one in `s`. -/
theorem findSub_append_left {pat s t : List α} {i : Nat} (h : findSub pat (s ++ t) = some i)
    (hi : i + pat.length ≤ s.length) : findSub pat s = some i := by
  obtain ⟨-, hp, hmin⟩ := (findSub_eq_some_iff).mp h
  refine (findSub_eq_some_iff).mpr ⟨by omega, prefix_drop_of_append hi hp, ?_⟩
  intro j hj hp'
  exact hmin j hj (prefix_drop_append (by omega) hp')

/-- The first occurrence in the part of a text before a cut is that of the text, if it ends there. -/
theorem findSub_take_iff {pat s : List α} {n i : Nat} :
    findSub pat (s.take n) = some i ↔ findSub pat s = some i ∧ i + pat.length ≤ n := by
  constructor
  · intro h
    have hlen := findSub_length_le h
    rw [List.length_take] at hlen
    have hs := findSub_append h (s.drop n)
    rw [List.take_append_drop] at hs
    exact ⟨hs, by omega⟩
  · rintro ⟨h, hn⟩
    have hlen := findSub_length_le h
    rw [← List.take_append_drop n s] at h
    exact findSub_append_left h (by rw [List.length_take]; omega)

/-- The pattern stands at the offset that was found. -/
theorem findSub_split {pat s : List α} {i : Nat} (h : findSub pat s = some i) :
    s = s.take i ++ pat ++ s.drop (i + pat.length) := by
  obtain ⟨-, ⟨r, hr⟩, -⟩ := (findSub_eq_some_iff).mp h
  have hd : s.drop (i + pat.length) = r := by
    rw [← List.drop_drop, ← hr, List.drop_left]
  rw [hd, List.append_assoc, hr, List.take_append_drop]

/-! ### Cuts and later starts -/

omit [DecidableEq α] in
/-- An occurrence in the part of a text before a cut is one that ends there. -/
theorem prefix_drop_take_iff {pat s : List α} {n i : Nat} (hpos : 0 < pat.length)
    (hn : n ≤ s.length) : pat <+: (s.take n).drop i ↔ pat <+: s.drop i ∧ i + pat.length ≤ n := by
  have hlen : (s.take n).length = n := by
    rw [List.length_take]
    omega
  constructor
  · intro h
    have hfit := h.length_le
    rw [List.length_drop, hlen] at hfit
    have hp := prefix_drop_append (t := s.drop n) (by omega) h
    rw [List.take_append_drop] at hp
    exact ⟨hp, by omega⟩
  · rintro ⟨hp, hfit⟩
    rw [← List.take_append_drop n s] at hp
    exact prefix_drop_of_append (by omega) hp

/-- **A later start** finds the same occurrence, if it does not start behind it. -/
theorem findSub_drop_some {pat s : List α} {i k : Nat} (h : findSub pat s = some i) (hk : k ≤ i) :
    findSub pat (s.drop k) = some (i - k) := by
  obtain ⟨hi, hp, hmin⟩ := (findSub_eq_some_iff).mp h
  apply (findSub_eq_some_iff).mpr
  refine ⟨by rw [List.length_drop]; omega, ?_, ?_⟩
  · rw [List.drop_drop, show k + (i - k) = i by omega]
    exact hp
  · intro j hj hp'
    rw [List.drop_drop] at hp'
    exact hmin (k + j) (by omega) hp'

theorem findSub_drop_none {pat s : List α} (hpos : 0 < pat.length) (h : findSub pat s = none)
    (k : Nat) : findSub pat (s.drop k) = none := by
  rw [findSub_eq_none_iff] at h ⊢
  intro i hi hp
  rw [List.drop_drop] at hp
  have hfit := hp.length_le
  rw [List.length_drop] at hfit
  exact h (k + i) (by omega) hp

/-- **Cuts.** What is found before the cut is found in the text, … -/
theorem findSub_take_some {pat s : List α} {n k i : Nat} (hpos : 0 < pat.length)
    (h : findSub pat ((s.take n).drop k) = some i) : findSub pat (s.drop k) = some i := by
  have hfit := findSub_length_le h
  rw [List.length_drop, List.length_take] at hfit
  have hsplit : s.drop k = (s.take n).drop k ++ s.drop n := by
    rw [← List.drop_append_of_le_length (by rw [List.length_take]; omega),
      List.take_append_drop]
  rw [hsplit]
  exact findSub_append h _

/-- … and what is not found there ends behind the cut. -/
theorem findSub_take_none {pat s : List α} {n k i : Nat} (hpos : 0 < pat.length)
    (hn : n ≤ s.length) (h : findSub pat ((s.take n).drop k) = none)
    (hs : findSub pat (s.drop k) = some i) : n < k + i + pat.length := by
  by_contra hle
  obtain ⟨-, hp, -⟩ := (findSub_eq_some_iff).mp hs
  rw [List.drop_drop] at hp
  rw [findSub_eq_none_iff] at h
  refine h i ?_ ?_
  · rw [List.length_drop, List.length_take]
    omega
  · rw [List.drop_drop]
    exact (prefix_drop_take_iff hpos hn).mpr ⟨hp, by omega⟩

/-! ### Words that end with a stop -/

omit [DecidableEq α] in
/-- Where a word that ends with a stop occurs: before the first stop, or behind it. -/
theorem prefix_drop_stop_iff {u s t : List α} {q : α} (hu : q ∉ u) (hs : q ∉ s) {j : Nat} :
    u ++ [q] <+: (s ++ q :: t).drop j ↔
      (u <:+ s ∧ j + u.length = s.length) ∨ ∃ k, j = s.length + 1 + k ∧ u ++ [q] <+: t.drop k := by
  constructor
  · intro h
    rcases Nat.lt_or_ge s.length j with hlt | hle
    · -- behind the stop
      obtain ⟨k, rfl⟩ : ∃ k, j = s.length + 1 + k := ⟨j - (s.length + 1), by omega⟩
      rw [Nat.add_assoc, ← List.drop_drop, List.drop_left, Nat.add_comm 1 k, List.drop_succ_cons] at h
      exact Or.inr ⟨k, rfl, h⟩
    · -- the stop of the word is the first stop of the text
      left
      rw [List.drop_append_of_le_length hle] at h
      obtain ⟨r, hr⟩ := h
      rw [List.append_assoc, List.singleton_append] at hr
      have hsd : q ∉ s.drop j := fun hmem => hs (List.mem_of_mem_drop hmem)
      have heq : u = s.drop j := by
        obtain ⟨a, ha⟩ | ⟨c, hc⟩ := List.append_eq_append_iff.mp hr
        · obtain ⟨ha, hrest⟩ := ha
          cases a with
          | nil => rw [ha, List.append_nil]
          | cons x a =>
            obtain ⟨rfl, -⟩ := List.cons.inj hrest
            exact absurd (ha ▸ List.mem_append_right u List.mem_cons_self) hsd
        · obtain ⟨hc, hrest⟩ := hc
          cases c with
          | nil => rw [hc, List.append_nil]
          | cons x c =>
            obtain ⟨rfl, -⟩ := List.cons.inj hrest
            exact absurd (hc ▸ List.mem_append_right _ List.mem_cons_self) hu
      refine ⟨heq ▸ List.drop_suffix j s, ?_⟩
      rw [heq, List.length_drop]
      omega
  · rintro (⟨⟨x, rfl⟩, hj⟩ | ⟨k, rfl, h⟩)
    · rw [List.length_append] at hj
      obtain rfl : j = x.length := by omega
      rw [List.append_assoc, List.drop_left]
      exact ⟨t, by rw [List.append_assoc]; rfl⟩
    · rw [Nat.add_assoc, ← List.drop_drop, List.drop_left, Nat.add_comm 1 k, List.drop_succ_cons]
      exact h

/-- **The first occurrence** of a word that ends with a stop is before the first stop, or behind it. -/
theorem findSub_stop {u s t : List α} {q : α} (hu : q ∉ u) (hs : q ∉ s) :
    findSub (u ++ [q]) (s ++ q :: t) = if u.isSuffixOf s then some (s.length - u.length)
      else (findSub (u ++ [q]) t).map (s.length + 1 + ·) := by
  by_cases hsuffix : u.isSuffixOf s = true
  · rw [if_pos hsuffix]
    have hsuf := List.isSuffixOf_iff_suffix.mp hsuffix
    have hle := hsuf.length_le
    refine (findSub_eq_some_iff).mpr ⟨?_, ?_, fun j hj hp => ?_⟩
    · rw [List.length_append]
      omega
    · exact (prefix_drop_stop_iff hu hs).mpr (Or.inl ⟨hsuf, by omega⟩)
    · obtain ⟨-, hlen⟩ | ⟨k, rfl, -⟩ := (prefix_drop_stop_iff hu hs).mp hp <;> omega
  rw [if_neg hsuffix]
  have hno : ¬ u <:+ s := fun h => hsuffix (List.isSuffixOf_iff_suffix.mpr h)
  cases hf : findSub (u ++ [q]) t with
  | none =>
    refine (findSub_eq_none_iff).mpr fun j hj hp => ?_
    obtain ⟨hsuf, -⟩ | ⟨k, rfl, hk⟩ := (prefix_drop_stop_iff hu hs).mp hp
    · exact hno hsuf
    · rw [List.length_append, List.length_cons] at hj
      exact (findSub_eq_none_iff).mp hf k (by omega) hk
  | some i =>
    obtain ⟨hi, hp, hmin⟩ := (findSub_eq_some_iff).mp hf
    show _ = some (s.length + 1 + i)
    refine (findSub_eq_some_iff).mpr ⟨?_, ?_, fun j hj hp' => ?_⟩
    · rw [List.length_append, List.length_cons]
      omega
    · exact (prefix_drop_stop_iff hu hs).mpr (Or.inr ⟨i, rfl, hp⟩)
    · obtain ⟨hsuf, -⟩ | ⟨k, rfl, hk⟩ := (prefix_drop_stop_iff hu hs).mp hp'
      · exact hno hsuf
      · exact hmin k (by omega) hk

/-- The first occurrence of one letter. -/
theorem findSub_singleton_iff {s : List α} {q : α} {i : Nat} :
    findSub [q] s = some i ↔ ∃ u t, s = u ++ q :: t ∧ q ∉ u ∧ i = u.length := by
  have hfirst : ∀ u t : List α, q ∉ u → findSub [q] (u ++ q :: t) = some u.length := by
    intro u t hu
    have h := findSub_stop (t := t) (List.not_mem_nil (a := q)) hu
    rw [if_pos (List.isSuffixOf_iff_suffix.mpr (List.nil_suffix))] at h
    exact h
  constructor
  · intro h
    have hmem : q ∈ s := by
      rw [findSub_split h]
      exact List.mem_append_left _ (List.mem_append_right _ (List.mem_singleton.mpr rfl))
    obtain ⟨u, t, rfl, hu⟩ := List.eq_append_cons_of_mem hmem
    exact ⟨u, t, rfl, hu, Option.some.inj (h.symm.trans (hfirst u t hu))⟩
  · rintro ⟨u, t, rfl, hu, rfl⟩
    exact hfirst u t hu

/-! ### Texts up to a stop -/

variable {p : α → Bool}

omit [DecidableEq α] in
/-- A later start in the part of a text before its stop. -/
theorem takeWhile_drop {s : List α} {k : Nat} (h : k ≤ (s.takeWhile p).length) :
    (s.drop k).takeWhile p = (s.takeWhile p).drop k := by
  induction k generalizing s with
  | zero => rfl
  | succ k ih =>
    cases s with
    | nil => rfl
    | cons c s =>
      rw [List.takeWhile_cons] at h ⊢
      split at h
      · rename_i hc
        rw [if_pos hc]
        exact ih (Nat.le_of_succ_le_succ h)
      · rw [List.length_nil] at h
        omega

/-- **More text** behind the stop, or before it, does not move the first occurrence. -/
theorem findSub_takeWhile_append {pat s : List α} {i : Nat} (h : findSub pat (s.takeWhile p) = some i)
    (t : List α) : findSub pat ((s ++ t).takeWhile p) = some i := by
  rw [List.takeWhile_append]
  split_ifs with hall
  · rw [(List.takeWhile_sublist p).eq_of_length hall] at h
    exact findSub_append h _
  · exact h

/-- A word that ends with a stop and has no other stop is found where it is put, if it does not stand before. -/
theorem findSub_ends {u s : List α} {q : α} (hu : q ∉ u) (h : ¬ u ++ [q] <:+: s) (t : List α) :
    findSub (u ++ [q]) (s ++ (u ++ [q] ++ t)) = some s.length := by
  refine findSub_eq_some_iff.mpr ⟨by rw [List.length_append]; omega, ?_, fun j hj hp => ?_⟩
  · rw [List.drop_left]
    exact List.prefix_append _ _
  by_cases hin : j + (u.length + 1) ≤ s.length
  · -- it would stand in `s`
    refine h (List.IsInfix.trans ?_ (List.drop_suffix j s).isInfix)
    refine List.IsPrefix.isInfix (prefix_drop_of_append (t := u ++ [q] ++ t) ?_ hp)
    rw [List.length_append, List.length_singleton]
    exact hin
  · -- its stop would be an earlier byte of the word
    obtain ⟨r, hr⟩ := hp
    have hstop : (s ++ (u ++ [q] ++ t))[j + u.length]? = some q := by
      rw [← List.getElem?_drop, ← hr, List.append_assoc, List.getElem?_append_right (Nat.le_refl _), Nat.sub_self]
      rfl
    rw [List.getElem?_append_right (by omega), List.append_assoc, List.getElem?_append_left (by omega)] at hstop
    exact hu (List.mem_of_getElem? hstop)

end DS4.Lib
