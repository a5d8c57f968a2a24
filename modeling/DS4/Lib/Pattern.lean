import Mathlib.Data.List.Basic

namespace DS4.Lib

/-!
# Patterns over lists, matched greedily

A pattern at the start of a list may end in several places.  They are listed in the order in which a
backtracking matcher tries them, and the first of them is the match.

* `Pat`, `Pat.ends` — patterns, and what is behind each of their matches; `Pat.rest` is the first.
* `firstRest` — the first of several patterns that matches.
* `Pat.rest_plus`, `Pat.rest_optPlus`, `Pat.rest_upToLast`, `Pat.rest_notBefore` — the matches of some
  common patterns, without backtracking.
* `dropWhile_takeWhile`, `dropWhile_or_eq_iff` — runs inside longer runs, and of two kinds.
-/

variable {α : Type*}

/-- Patterns. -/
inductive Pat (α : Type*) where
  | one (p : α → Bool)
  | many (p : α → Bool)
  | opt (a : Pat α)
  | seq (a b : Pat α)
  | notAhead (p : α → Bool)

/-- What is behind a run, the longest run first. -/
def manyEnds (p : α → Bool) : List α → List (List α)
  | []     => [[]]
  | c :: s => if p c then manyEnds p s ++ [c :: s] else [c :: s]

namespace Pat

/-- What is behind the matches at the start of a list, in the order in which they are tried. -/
def ends : Pat α → List α → List (List α)
  | one p, s      => match s with
    | []     => []
    | c :: s => if p c then [s] else []
  | many p, s     => manyEnds p s
  | opt a, s      => a.ends s ++ [s]
  | seq a b, s    => (a.ends s).flatMap b.ends
  | notAhead p, s => if s.head?.any p then [] else [s]

/-- What is behind the match. -/
def rest (a : Pat α) (s : List α) : Option (List α) := (a.ends s).head?

/-- One or more. -/
def plus (p : α → Bool) : Pat α := seq (one p) (many p)

end Pat

/-- The pattern takes an element at least. -/
def Pat.takes : Pat α → Bool
  | .one _      => true
  | .many _     => false
  | .opt _      => false
  | .seq a b    => a.takes || b.takes
  | .notAhead _ => false

/-- What is behind the match of the first pattern that has one. -/
def firstRest (rules : List (Pat α)) (s : List α) : Option (List α) := rules.findSome? fun a => a.rest s

/-! ### Ends of a list -/

variable {p q : α → Bool} {s r : List α}

theorem suffix_of_mem_singleton (h : r ∈ [s]) : r <:+ s := by
  obtain rfl := List.mem_singleton.mp h
  exact List.suffix_rfl

theorem mem_manyEnds (h : r ∈ manyEnds p s) : r <:+ s := by
  induction s with
  | nil => exact suffix_of_mem_singleton h
  | cons c s ih =>
    unfold manyEnds at h
    split at h
    · rcases List.mem_append.mp h with h | h
      · exact (ih h).trans (List.suffix_cons c s)
      · exact suffix_of_mem_singleton h
    · exact suffix_of_mem_singleton h

/-- **A match** ends in the list. -/
theorem Pat.mem_ends (a : Pat α) : ∀ {s r : List α}, r ∈ a.ends s → r <:+ s := by
  induction a with
  | one p =>
    intro s r h
    unfold ends at h
    cases s with
    | nil => cases h
    | cons c s =>
      dsimp only at h
      split at h
      · exact (suffix_of_mem_singleton h).trans (List.suffix_cons c s)
      · cases h
  | many p => exact mem_manyEnds
  | opt a ih =>
    intro s r h
    rcases List.mem_append.mp h with h | h
    · exact ih h
    · exact suffix_of_mem_singleton h
  | seq a b iha ihb =>
    intro s r h
    obtain ⟨m, hm, hr⟩ := List.mem_flatMap.mp h
    exact (ihb hr).trans (iha hm)
  | notAhead p =>
    intro s r h
    unfold ends at h
    split at h
    · cases h
    · exact suffix_of_mem_singleton h

theorem Pat.rest_suffix {a : Pat α} (h : a.rest s = some r) : r <:+ s :=
  a.mem_ends (List.mem_of_head? h)

theorem firstRest_suffix {rules : List (Pat α)} (h : firstRest rules s = some r) : r <:+ s := by
  obtain ⟨a, -, ha⟩ := List.exists_of_findSome?_eq_some h
  exact Pat.rest_suffix ha

theorem Pat.length_ends (a : Pat α) (ha : a.takes) :
    ∀ {s r : List α}, r ∈ a.ends s → r.length < s.length := by
  induction a with
  | one p =>
    intro s r h
    unfold ends at h
    cases s with
    | nil => cases h
    | cons c s =>
      dsimp only at h
      split at h
      · rw [List.mem_singleton.mp h]
        exact Nat.lt_succ_self _
      · cases h
  | many p => cases ha
  | opt a ih => cases ha
  | seq a b iha ihb =>
    intro s r h
    obtain ⟨m, hm, hr⟩ := List.mem_flatMap.mp h
    rcases (Bool.or_eq_true _ _).mp ha with ha | hb
    · exact Nat.lt_of_le_of_lt (b.mem_ends hr).length_le (iha ha hm)
    · exact Nat.lt_of_lt_of_le (ihb hb hr) (a.mem_ends hm).length_le
  | notAhead p => cases ha

/-- **A match** of such a pattern is shorter than the list. -/
theorem firstRest_length {rules : List (Pat α)} (hrules : ∀ a ∈ rules, a.takes)
    (h : firstRest rules s = some r) : r.length < s.length := by
  obtain ⟨a, hmem, ha⟩ := List.exists_of_findSome?_eq_some h
  exact a.length_ends (hrules a hmem) (List.mem_of_head? ha)

theorem firstRest_cons (a : Pat α) (rules : List (Pat α)) (s : List α) :
    firstRest (a :: rules) s = (a.rest s).or (firstRest rules s) := by
  unfold firstRest
  rw [List.findSome?_cons]
  cases a.rest s <;> rfl

/-! ### Common patterns -/

theorem head?_manyEnds (p : α → Bool) (s : List α) : (manyEnds p s).head? = some (s.dropWhile p) := by
  induction s with
  | nil => rfl
  | cons c s ih =>
    unfold manyEnds
    rw [List.dropWhile_cons]
    split
    · rw [List.head?_append, ih, Option.some_or]
    · rfl

namespace Pat

theorem ends_one_cons (p : α → Bool) (c : α) (s : List α) :
    (one p).ends (c :: s) = if p c then [s] else [] := rfl

/-- **A run.** -/
theorem rest_plus (p : α → Bool) (c : α) (s : List α) :
    (plus p).rest (c :: s) = if p c then some (s.dropWhile p) else none := by
  unfold plus rest ends
  by_cases hc : p c
  · simp [ends, hc, head?_manyEnds]
  · simp [ends, hc]

theorem rest_plus_eq (p : α → Bool) (s : List α) :
    (plus p).rest s = if s.head?.any p then some (s.dropWhile p) else none := by
  cases s with
  | nil => rfl
  | cons c s =>
    rw [rest_plus]
    by_cases hc : p c <;> simp [hc]

/-- A run, and another one behind it. -/
theorem rest_plusMany (p q : α → Bool) (s : List α) :
    (seq (plus p) (many q)).rest s =
      if s.head?.any p then some ((s.dropWhile p).dropWhile q) else none := by
  cases s with
  | nil => rfl
  | cons c s =>
    rw [List.head?_cons, Option.any_some, List.dropWhile_cons]
    unfold rest ends
    by_cases hc : p c
    · have hne : (plus p).ends (c :: s) = manyEnds p s := by
        simp [plus, ends, hc]
      obtain ⟨ms, hms⟩ := List.head?_eq_some_iff.mp (head?_manyEnds p s)
      rw [hne, hms, List.flatMap_cons, List.head?_append, if_pos hc, if_pos hc]
      show ((manyEnds q (s.dropWhile p)).head?).or _ = _
      rw [head?_manyEnds, Option.some_or]
    · simp [plus, ends, hc]

theorem rest_opt (a : Pat α) (s : List α) : (opt a).rest s = some ((a.rest s).getD s) := by
  show (a.ends s ++ [s]).head? = _
  unfold rest
  cases a.ends s <;> rfl

/-- An element that may be missing before a pattern. -/
theorem rest_optSeq (q : α → Bool) (a : Pat α) (c : α) (s : List α) :
    (seq (opt (one q)) a).rest (c :: s) = (if q c then a.rest s else none).or (a.rest (c :: s)) := by
  show (((one q).ends (c :: s) ++ [c :: s]).flatMap a.ends).head? = _
  unfold rest
  rw [ends_one_cons]
  by_cases hc : q c <;> simp [hc, List.head?_append]

/-- An element before a pattern. -/
theorem rest_oneSeq (q : α → Bool) (a : Pat α) (c : α) (s : List α) :
    (seq (one q) a).rest (c :: s) = if q c then a.rest s else none := by
  show (((one q).ends (c :: s)).flatMap a.ends).head? = _
  unfold rest
  rw [ends_one_cons]
  by_cases hc : q c <;> simp [hc]

end Pat

/-- What is behind the last element with `q` in the run at the start, if there is one. -/
def upToLast (p q : α → Bool) : List α → Option (List α)
  | []     => none
  | c :: s => if p c then (upToLast p q s).or (if q c then some s else none) else none

theorem upToLast_eq_none (h : upToLast p q s = none) : (s.takeWhile p).any q = false := by
  induction s with
  | nil => rfl
  | cons c s ih =>
    unfold upToLast at h
    rw [List.takeWhile_cons]
    split at h
    · rename_i hc
      rw [Option.or_eq_none_iff] at h
      have hq : q c = false := by
        by_contra hq
        rw [if_pos (by simpa using hq)] at h
        exact absurd h.2 (by simp)
      rw [if_pos hc, List.any_cons, hq, ih h.1, Bool.or_self]
    · rename_i hc
      rw [if_neg hc, List.any_nil]

/-- What is behind the match is behind elements of the run. -/
theorem upToLast_eq_some (h : upToLast p q s = some r) :
    ∃ l c, s = l ++ c :: r ∧ p c ∧ q c ∧ ∀ x ∈ l, p x := by
  induction s with
  | nil => cases h
  | cons c s ih =>
    unfold upToLast at h
    split at h
    · rename_i hc
      rcases Option.or_eq_some_iff.mp h with h | ⟨-, h⟩
      · obtain ⟨l, d, rfl, hd, hq, hl⟩ := ih h
        refine ⟨c :: l, d, rfl, hd, hq, ?_⟩
        intro x hx
        rcases List.mem_cons.mp hx with rfl | hx
        · exact hc
        · exact hl x hx
      · split at h
        · rename_i hq
          rw [Option.some.injEq] at h
          subst h
          exact ⟨[], c, rfl, hc, hq, fun x hx => absurd hx List.not_mem_nil⟩
        · cases h
    · cases h

theorem isSome_upToLast (h : (s.takeWhile p).any q) : (upToLast p q s).isSome := by
  by_contra hnone
  rw [Option.not_isSome_iff_eq_none] at hnone
  rw [upToLast_eq_none hnone] at h
  exact absurd h Bool.false_ne_true

/-- **A run up to its last newline**, say. -/
theorem Pat.rest_upToLast (hpq : ∀ c, q c → p c) (s : List α) :
    (seq (many p) (plus q)).rest s = upToLast p q s := by
  induction s with
  | nil => rfl
  | cons c s ih =>
    have hplus : ((plus q).ends (c :: s)).head? = if q c then some (s.dropWhile q) else none :=
      rest_plus q c s
    unfold rest ends at ih ⊢
    show ((manyEnds p (c :: s)).flatMap (plus q).ends).head? = _
    change ((manyEnds p s).flatMap (plus q).ends).head? = _ at ih
    unfold upToLast manyEnds
    by_cases hc : p c
    · rw [if_pos hc, if_pos hc, List.flatMap_append, List.head?_append, ih, List.flatMap_singleton,
        hplus]
      cases hlast : upToLast p q s with
      | some r => rw [Option.some_or, Option.some_or]
      | none =>
        -- no such element starts what is left
        have hdrop : s.dropWhile q = s := by
          have hany := upToLast_eq_none hlast
          cases s with
          | nil => rfl
          | cons d s =>
            rw [List.dropWhile_cons, if_neg]
            intro hd
            rw [List.takeWhile_cons, if_pos (hpq d hd), List.any_cons, hd] at hany
            exact absurd hany (by simp)
        rw [hdrop]
    · rw [if_neg hc, if_neg hc, List.flatMap_singleton, hplus, if_neg fun hq => hc (hpq c hq)]

/-- What is behind a run that is not followed by anything else: behind the whole run at the end of the
    list, and one element before its end otherwise. -/
def notBefore (p : α → Bool) : List α → Option (List α)
  | []     => some []
  | c :: s => if p c then (notBefore p s).or (some (c :: s)) else none

theorem Pat.rest_notBefore (p : α → Bool) (c : α) (s : List α) :
    (seq (plus p) (notAhead fun d => !p d)).rest (c :: s) = if p c then notBefore p s else none := by
  have hmany : ((manyEnds p s).flatMap (notAhead fun d => !p d).ends).head? = notBefore p s := by
    induction s with
    | nil => rfl
    | cons d s ih =>
      unfold manyEnds notBefore
      by_cases hd : p d
      · rw [if_pos hd, if_pos hd, List.flatMap_append, List.head?_append, ih]
        simp [ends, hd]
      · rw [if_neg hd, if_neg hd]
        simp [ends, hd]
  unfold rest
  by_cases hc : p c
  · have hends : (plus p).ends (c :: s) = manyEnds p s := by
      simp [plus, ends, hc]
    show (((plus p).ends (c :: s)).flatMap (notAhead fun d => !p d).ends).head? = _
    rw [hends, hmany, if_pos hc]
  · simp [plus, ends, hc]

theorem notBefore_eq (p : α → Bool) (s : List α) :
    notBefore p s =
      if s.dropWhile p = [] then some []
      else if s.takeWhile p = [] then none
      else some (s.drop ((s.takeWhile p).length - 1)) := by
  induction s with
  | nil => rfl
  | cons c s ih =>
    unfold notBefore
    by_cases hc : p c
    · rw [if_pos hc, ih]
      simp only [List.dropWhile_cons_of_pos hc, List.takeWhile_cons_of_pos hc, List.length_cons]
      by_cases hd : s.dropWhile p = []
      · simp [hd]
      · by_cases ht : s.takeWhile p = []
        · simp [hd, ht]
        · have hpos := List.length_pos_of_ne_nil ht
          obtain ⟨n, hn⟩ := Nat.exists_eq_add_one_of_ne_zero (Nat.ne_of_gt hpos)
          simp [hd, ht, hn]
    · simp [hc]

/-! ### Runs -/

theorem dropWhile_congr_mem (h : ∀ c ∈ s, p c = q c) : s.dropWhile p = s.dropWhile q := by
  induction s with
  | nil => rfl
  | cons c s ih =>
    rw [List.dropWhile_cons, List.dropWhile_cons, h c List.mem_cons_self,
      ih fun d hd => h d (List.mem_cons_of_mem c hd)]

theorem head?_any_congr (h : ∀ c ∈ s, p c = q c) : s.head?.any p = s.head?.any q := by
  cases s with
  | nil => rfl
  | cons c s => exact h c List.mem_cons_self

/-- **A run inside a longer one.** -/
theorem dropWhile_takeWhile (hpq : ∀ c, p c → q c) (s : List α) :
    (s.takeWhile q).dropWhile p = (s.dropWhile p).takeWhile q := by
  induction s with
  | nil => rfl
  | cons c s ih =>
    by_cases hp : p c
    · simp [hp, hpq c hp, ih]
    · by_cases hq : q c <;> simp [hp, hq]

theorem takeWhile_takeWhile_of_imp (hpq : ∀ c, p c → q c) (s : List α) :
    (s.takeWhile q).takeWhile p = s.takeWhile p := by
  induction s with
  | nil => rfl
  | cons c s ih =>
    by_cases hp : p c
    · simp [hp, hpq c hp, ih]
    · by_cases hq : q c <;> simp [hp, hq]

theorem dropWhile_takeWhile_append (hpq : ∀ c, p c → q c) (s : List α) :
    (s.takeWhile q).dropWhile p ++ s.dropWhile q = s.dropWhile p := by
  induction s with
  | nil => rfl
  | cons c s ih =>
    by_cases hp : p c
    · simp [hp, hpq c hp, ih]
    · by_cases hq : q c <;> simp [hp, hq]

theorem dropWhile_dropWhile_of_imp (hpq : ∀ c, p c → q c) (s : List α) :
    (s.dropWhile p).dropWhile q = s.dropWhile q := by
  induction s with
  | nil => rfl
  | cons c s ih =>
    by_cases hp : p c
    · simp [hp, hpq c hp, ih]
    · simp [hp]

theorem head?_takeWhile_any (hpq : ∀ c, p c → q c) (s : List α) :
    (s.takeWhile q).head?.any p = s.head?.any p := by
  cases s with
  | nil => rfl
  | cons c s =>
    by_cases hq : q c
    · simp [hq]
    · have hp : p c = false := by
        by_contra hp
        exact hq (hpq c (by simpa using hp))
      simp [hq, hp]

theorem takeWhile_eq_nil (p : α → Bool) (s : List α) : s.takeWhile p = [] ↔ s.head?.any p = false := by
  cases s with
  | nil => simp
  | cons c s => by_cases hc : p c <;> simp [hc]

theorem upToLast_takeWhile {m : α → Bool} (hpm : ∀ c, p c → m c) (s : List α) :
    (upToLast p q (s.takeWhile m)).map (· ++ s.dropWhile m) = upToLast p q s := by
  induction s with
  | nil => rfl
  | cons c s ih =>
    by_cases hp : p c
    · have hm := hpm c hp
      simp only [List.takeWhile_cons_of_pos hm, List.dropWhile_cons_of_pos hm]
      unfold upToLast
      rw [if_pos hp, if_pos hp, ← ih]
      cases upToLast p q (s.takeWhile m) with
      | some r => rfl
      | none =>
        split
        · simp [List.takeWhile_append_dropWhile]
        · rfl
    · by_cases hm : m c <;> simp [upToLast, hp, hm]

/-- The start of what is behind a run. -/
theorem head?_dropWhile_any (p : α → Bool) (s : List α) : (s.dropWhile p).head?.any p = false := by
  induction s with
  | nil => rfl
  | cons c s ih =>
    rw [List.dropWhile_cons]
    split
    · exact ih
    · rename_i hc
      simpa using hc

/-- **A run of two kinds** ends with a run of the first kind where the second kind does not follow. -/
theorem dropWhile_or_eq_iff (p q : α → Bool) (s : List α) :
    (s.dropWhile fun c => p c || q c) = s.dropWhile p ↔ (s.dropWhile p).head?.any q = false := by
  induction s with
  | nil => simp
  | cons c s ih =>
    by_cases hp : p c
    · simpa [hp] using ih
    · by_cases hq : q c
      · simp only [List.dropWhile_cons, hp, hq, Bool.or_true, if_true]
        have hlen := (List.dropWhile_suffix (l := s) fun c => p c || q c).length_le
        constructor
        · intro heq
          simp only [Bool.false_eq_true, if_false] at heq
          rw [heq, List.length_cons] at hlen
          omega
        · intro h
          simp [hq] at h
      · simp [hp, hq]

end DS4.Lib
