import Mathlib.Data.List.Basic
import Mathlib.Order.Nat

namespace DS4.Lib

/-!
# Lines of a text

A line ends behind a line feed, a carriage return, or the two together; the last one may end with the
text.

* `lines` — the lines of a text, as spans of it.
* `countLines` — how many there are; `countLines_append_le` and `countLines_add_le` bound the number for
  a text put together from two.
* `start_lt_iff`, `stop_le_of_lt` — which lines of such a text start and end in its first part.
* `lineAt` — the content of a line by its number, from 1.
-/

/-- A line: where it starts, where its content ends, and where its terminator ends. -/
structure LineSpan where
  start      : Nat
  contentEnd : Nat
  stop       : Nat
deriving DecidableEq, Repr

/-- A byte that ends a line. -/
abbrev Newline (c : UInt8) : Prop := c = 0x0a ∨ c = 0x0d

/-- The lines of the text from `pos` on, the first of which starts at `start`. -/
def linesFrom : Nat → Nat → List UInt8 → List LineSpan
  | start, pos, []          => if start < pos then [⟨start, pos, pos⟩] else []
  | start, pos, [c]         =>
    if Newline c then [⟨start, pos, pos + 1⟩] else linesFrom start (pos + 1) []
  | start, pos, c :: d :: s =>
    if c = 0x0d ∧ d = 0x0a then ⟨start, pos, pos + 2⟩ :: linesFrom (pos + 2) (pos + 2) s
    else if Newline c then ⟨start, pos, pos + 1⟩ :: linesFrom (pos + 1) (pos + 1) (d :: s)
    else linesFrom start (pos + 1) (d :: s)

/-- The lines of a text. -/
def lines (t : List UInt8) : List LineSpan := linesFrom 0 0 t

/-- How many lines begin in the text, and one more when it begins inside a line. -/
def countFrom : Bool → List UInt8 → Nat
  | inside, []     => if inside then 1 else 0
  | _, [_]         => 1
  | _, c :: d :: s =>
    if c = 0x0d ∧ d = 0x0a then countFrom false s + 1
    else if Newline c then countFrom false (d :: s) + 1
    else countFrom true (d :: s)

/-- How many lines a text has. -/
def countLines (t : List UInt8) : Nat := countFrom false t

theorem linesFrom_cons (start pos : Nat) (c : UInt8) (s : List UInt8) :
    linesFrom start pos (c :: s) =
      if c = 0x0d ∧ s.head? = some 0x0a then ⟨start, pos, pos + 2⟩ :: linesFrom (pos + 2) (pos + 2) s.tail
      else if Newline c then ⟨start, pos, pos + 1⟩ :: linesFrom (pos + 1) (pos + 1) s
      else linesFrom start (pos + 1) s := by
  cases s <;> simp [linesFrom]

theorem countFrom_cons (inside : Bool) (c : UInt8) (s : List UInt8) :
    countFrom inside (c :: s) =
      if c = 0x0d ∧ s.head? = some 0x0a then countFrom false s.tail + 1
      else if Newline c then countFrom false s + 1
      else countFrom true s := by
  cases s <;> simp [countFrom]

/-- A property of all texts, from that of the rest of a text behind its first byte, and its first two. -/
theorem byteInduction {P : List UInt8 → Prop} (nil : P [])
    (cons : ∀ c s, P s → P s.tail → P (c :: s)) (t : List UInt8) : P t := by
  have h : P t ∧ P t.tail := by
    induction t with
    | nil         => exact ⟨nil, nil⟩
    | cons c s ih => exact ⟨cons c s ih.1 ih.2, ih.1⟩
  exact h.1

/-! ### The number of lines -/

theorem countFrom_true_le (t : List UInt8) : countFrom true t ≤ countFrom false t + 1 := by
  cases t with
  | nil      => simp [countFrom]
  | cons c t => rw [countFrom_cons, countFrom_cons]; omega

theorem countFrom_false_le (t : List UInt8) : countFrom false t ≤ countFrom true t := by
  cases t with
  | nil      => simp [countFrom]
  | cons c t => rw [countFrom_cons, countFrom_cons]

theorem countFrom_pos (inside : Bool) (c : UInt8) (s : List UInt8) : 0 < countFrom inside (c :: s) := by
  induction s using byteInduction generalizing inside c with
  | nil => simp [countFrom]
  | cons d s ih _ =>
    rw [countFrom_cons]
    split_ifs
    · exact Nat.succ_pos _
    · exact Nat.succ_pos _
    · exact ih true d

/-- A line feed that does not belong to a return ends a line. -/
theorem countFrom_lf (inside : Bool) (s : List UInt8) :
    countFrom inside (0x0a :: s) = countFrom false s + 1 := by
  rw [countFrom_cons, if_neg fun h => absurd h.1 (by decide), if_pos (Or.inl rfl)]

theorem countFrom_cons_le (inside : Bool) (c : UInt8) (s : List UInt8) :
    countFrom inside (c :: s) ≤ countFrom false s + 1 := by
  rw [countFrom_cons]
  split_ifs with hcr
  · obtain ⟨s, rfl⟩ : ∃ s', s = 0x0a :: s' := List.head?_eq_some_iff.mp hcr.2
    rw [countFrom_lf]
    exact Nat.le_succ _
  · exact Nat.le_refl _
  · exact countFrom_true_le s

theorem countFrom_le_cons (inside : Bool) (c : UInt8) (s : List UInt8) :
    countFrom false s ≤ countFrom inside (c :: s) := by
  rw [countFrom_cons]
  split_ifs with hcr
  · obtain ⟨s, rfl⟩ : ∃ s', s = 0x0a :: s' := List.head?_eq_some_iff.mp hcr.2
    exact countFrom_cons_le false 0x0a s
  · exact Nat.le_succ _
  · exact countFrom_false_le s

/-- A text put together from two has at most as many lines as the two. -/
theorem countFrom_append_le (inside : Bool) (a b : List UInt8) :
    countFrom inside (a ++ b) ≤ countFrom inside a + countFrom false b := by
  induction a using byteInduction generalizing inside with
  | nil =>
    cases inside with
    | false => exact Nat.le_add_left ..
    | true  => rw [List.nil_append, Nat.add_comm]; exact countFrom_true_le b
  | cons c a ih ih' =>
    cases a with
    | nil =>
      -- the terminator may go on in the second text
      have h1 : countFrom inside [c] = 1 := rfl
      have hle := countFrom_cons_le inside c b
      rw [h1, List.singleton_append]
      omega
    | cons d a =>
      rw [List.cons_append, countFrom_cons inside c (d :: a ++ b), countFrom_cons inside c (d :: a)]
      have h1 := ih false
      have h2 := ih true
      have h3 := ih' false
      simp only [List.cons_append, List.head?_cons, List.tail_cons, Option.some.injEq] at *
      split_ifs <;> omega

/-- A text put together from two has at most one line less than the two. -/
theorem countFrom_add_le (inside : Bool) (a b : List UInt8) :
    countFrom inside a + countFrom false b ≤ countFrom inside (a ++ b) + 1 := by
  induction a using byteInduction generalizing inside with
  | nil =>
    cases inside with
    | false => simp [countFrom]
    | true  =>
      have := countFrom_false_le b
      show 1 + countFrom false b ≤ countFrom true b + 1
      omega
  | cons c a ih ih' =>
    cases a with
    | nil =>
      have h1 : countFrom inside [c] = 1 := rfl
      have hle := countFrom_le_cons inside c b
      rw [h1, List.singleton_append]
      omega
    | cons d a =>
      rw [List.cons_append, countFrom_cons inside c (d :: a ++ b), countFrom_cons inside c (d :: a)]
      have h1 := ih false
      have h2 := ih true
      have h3 := ih' false
      simp only [List.cons_append, List.head?_cons, List.tail_cons, Option.some.injEq] at *
      split_ifs <;> omega

theorem length_linesFrom {start pos : Nat} (h : start ≤ pos) (t : List UInt8) :
    (linesFrom start pos t).length = countFrom (decide (start < pos)) t := by
  induction t using byteInduction generalizing start pos with
  | nil =>
    rw [linesFrom, countFrom]
    by_cases hlt : start < pos <;> simp [hlt]
  | cons c s ih ih' =>
    rw [linesFrom_cons, countFrom_cons]
    have h1 := ih (Nat.le_succ_of_le h)
    have h2 := ih (Nat.le_refl (pos + 1))
    have h3 := ih' (Nat.le_refl (pos + 2))
    simp only [Nat.lt_irrefl, decide_false, Nat.lt_succ_of_le h, decide_true] at h1 h2 h3
    split_ifs
    · rw [List.length_cons, h3]
    · rw [List.length_cons, h2]
    · exact h1

@[simp] theorem length_lines (t : List UInt8) : (lines t).length = countLines t :=
  length_linesFrom (Nat.le_refl 0) t

theorem countLines_append_le (a b : List UInt8) : countLines (a ++ b) ≤ countLines a + countLines b :=
  countFrom_append_le false a b

theorem countLines_add_le (a b : List UInt8) : countLines a + countLines b ≤ countLines (a ++ b) + 1 :=
  countFrom_add_le false a b

theorem countLines_le_append (a b : List UInt8) : countLines a ≤ countLines (a ++ b) := by
  cases b with
  | nil => rw [List.append_nil]
  | cons c s =>
    have hadd := countLines_add_le a (c :: s)
    have hpos : 0 < countLines (c :: s) := countFrom_pos false c s
    omega

/-! ### Positions of lines -/

section
variable {start pos i : Nat} {t : List UInt8} {sp : LineSpan}

/-- The first line starts where the reading says, the others behind the first byte. -/
theorem start_linesFrom (h : start ≤ pos) (hi : (linesFrom start pos t)[i]? = some sp) :
    i = 0 ∧ sp.start = start ∨ 0 < i ∧ pos < sp.start := by
  induction t using byteInduction generalizing start pos i with
  | nil =>
    rw [linesFrom] at hi
    split_ifs at hi
    · cases i with
      | zero   => exact Or.inl ⟨rfl, (Option.some.inj hi) ▸ rfl⟩
      | succ i => simp at hi
    · simp at hi
  | cons c s ih ih' =>
    rw [linesFrom_cons] at hi
    split_ifs at hi
    · cases i with
      | zero   => exact Or.inl ⟨rfl, (Option.some.inj hi) ▸ rfl⟩
      | succ i =>
        rcases ih' (Nat.le_refl _) hi with ⟨-, h'⟩ | ⟨-, h'⟩ <;> omega
    · cases i with
      | zero   => exact Or.inl ⟨rfl, (Option.some.inj hi) ▸ rfl⟩
      | succ i =>
        rcases ih (Nat.le_refl _) hi with ⟨-, h'⟩ | ⟨-, h'⟩ <;> omega
    · rcases ih (Nat.le_succ_of_le h) hi with h' | ⟨h', h''⟩
      · exact Or.inl h'
      · exact Or.inr ⟨h', by omega⟩

/-- A line lies in the text and has a byte. -/
theorem bounds_linesFrom (h : start ≤ pos) (hsp : sp ∈ linesFrom start pos t) :
    sp.start ≤ sp.contentEnd ∧ sp.contentEnd ≤ sp.stop ∧ sp.start < sp.stop ∧ sp.stop ≤ pos + t.length := by
  induction t using byteInduction generalizing start pos with
  | nil =>
    rw [linesFrom] at hsp
    split_ifs at hsp
    · rcases List.mem_singleton.mp hsp with rfl
      exact ⟨h, Nat.le_refl _, ‹_›, Nat.le_add_right ..⟩
    · simp at hsp
  | cons c s ih ih' =>
    rw [linesFrom_cons] at hsp
    rw [List.length_cons]
    split_ifs at hsp with hcr
    · obtain ⟨s, rfl⟩ : ∃ s', s = 0x0a :: s' := List.head?_eq_some_iff.mp hcr.2
      rw [List.length_cons]
      rcases List.mem_cons.mp hsp with rfl | hsp
      · simp only
        omega
      · have := ih' (Nat.le_refl _) hsp
        simp only [List.tail_cons] at this
        omega
    · rcases List.mem_cons.mp hsp with rfl | hsp
      · simp only
        omega
      · have := ih (Nat.le_refl _) hsp
        omega
    · have := ih (Nat.le_succ_of_le h) hsp
      omega

/-- A line ends where the next one starts. -/
theorem stop_eq_start (h : start ≤ pos) {sp' : LineSpan} (hi : (linesFrom start pos t)[i]? = some sp)
    (hi' : (linesFrom start pos t)[i + 1]? = some sp') : sp.stop = sp'.start := by
  induction t using byteInduction generalizing start pos i with
  | nil =>
    rw [linesFrom] at hi'
    split_ifs at hi' <;> simp at hi'
  | cons c s ih ih' =>
    rw [linesFrom_cons] at hi hi'
    split_ifs at hi hi'
    · cases i with
      | zero =>
        rcases start_linesFrom (Nat.le_refl _) hi' with ⟨-, h'⟩ | ⟨h', -⟩
        · rw [h', ← Option.some.inj hi]
        · exact absurd h' (Nat.lt_irrefl 0)
      | succ i => exact ih' (Nat.le_refl _) hi hi'
    · cases i with
      | zero =>
        rcases start_linesFrom (Nat.le_refl _) hi' with ⟨-, h'⟩ | ⟨h', -⟩
        · rw [h', ← Option.some.inj hi]
        · exact absurd h' (Nat.lt_irrefl 0)
      | succ i => exact ih (Nat.le_refl _) hi hi'
    · exact ih (Nat.le_succ_of_le h) hi hi'

theorem stop_le_start (h : start ≤ pos) {sp' : LineSpan} (hi : (linesFrom start pos t)[i]? = some sp)
    (hi' : (linesFrom start pos t)[i + 1]? = some sp') : sp.stop ≤ sp'.start :=
  Nat.le_of_eq (stop_eq_start h hi hi')

theorem eq_nil_of_linesFrom (h : (linesFrom pos pos t)[0]? = none) : t = [] := by
  cases t with
  | nil => rfl
  | cons c s =>
    have hlen := length_linesFrom (Nat.le_refl pos) (c :: s)
    have hpos := countFrom_pos (decide (pos < pos)) c s
    have := List.getElem?_eq_none_iff.mp h
    omega

/-- The last line ends with the text. -/
theorem stop_last (h : start ≤ pos) (hi : (linesFrom start pos t)[i]? = some sp)
    (hi' : (linesFrom start pos t)[i + 1]? = none) : sp.stop = pos + t.length := by
  induction t using byteInduction generalizing start pos i with
  | nil =>
    rw [linesFrom] at hi
    split_ifs at hi
    · cases i with
      | zero   => rw [← Option.some.inj hi]; rfl
      | succ i => simp at hi
    · simp at hi
  | cons c s ih ih' =>
    rw [linesFrom_cons] at hi hi'
    rw [List.length_cons]
    split_ifs at hi hi' with hcr
    · obtain ⟨s, rfl⟩ : ∃ s', s = 0x0a :: s' := List.head?_eq_some_iff.mp hcr.2
      rw [List.length_cons]
      cases i with
      | zero =>
        have hnil : s = [] := eq_nil_of_linesFrom hi'
        rw [← Option.some.inj hi, hnil]
        rfl
      | succ i =>
        have := ih' (Nat.le_refl _) hi hi'
        simp only [List.tail_cons] at this
        omega
    · cases i with
      | zero =>
        rw [← Option.some.inj hi, eq_nil_of_linesFrom hi']
        rfl
      | succ i =>
        have := ih (Nat.le_refl _) hi hi'
        omega
    · have := ih (Nat.le_succ_of_le h) hi hi'
      omega

/-- The lines that start in the first part of a text. -/
theorem start_lt_iff_from (h : start ≤ pos) (a b : List UInt8)
    (hi : (linesFrom start pos (a ++ b))[i]? = some sp) :
    sp.start < pos + a.length ↔ i < countFrom (decide (start < pos)) a := by
  induction a using byteInduction generalizing start pos i with
  | nil =>
    rw [List.nil_append] at hi
    rcases start_linesFrom h hi with ⟨rfl, h'⟩ | ⟨hpos, h'⟩
    · by_cases hlt : start < pos <;> simp [countFrom, hlt, h']
    · have hcount : countFrom (decide (start < pos)) [] ≤ 1 := by
        rw [countFrom]
        split_ifs <;> simp
      rw [List.length_nil]
      omega
  | cons c a ih ih' =>
    cases a with
    | nil =>
      -- only the line that goes on at `pos` starts in a text of one byte
      have hcount : countFrom (decide (start < pos)) [c] = 1 := rfl
      rw [hcount, List.length_singleton]
      rcases start_linesFrom h hi with ⟨rfl, h'⟩ | ⟨hpos, h'⟩ <;> omega
    | cons d a =>
      rw [List.cons_append, linesFrom_cons] at hi
      rw [countFrom_cons, List.length_cons]
      simp only [List.cons_append, List.head?_cons, List.tail_cons, Option.some.injEq] at hi ih' ⊢
      split_ifs at hi ⊢
      · cases i with
        | zero =>
          have := Option.some.inj hi
          simp only [← this, List.length_cons]
          omega
        | succ i =>
          have := ih' (Nat.le_refl _) hi
          simp only [Nat.lt_irrefl, decide_false] at this
          rw [List.length_cons]
          omega
      · cases i with
        | zero =>
          have := Option.some.inj hi
          simp only [← this, List.length_cons]
          omega
        | succ i =>
          have := ih (Nat.le_refl _) hi
          simp only [Nat.lt_irrefl, decide_false] at this
          omega
      · have := ih (Nat.le_succ_of_le h) hi
        simp only [Nat.lt_succ_of_le h, decide_true] at this
        omega

end

/-- The lines that start in the first part of a text are as many as it has lines. -/
theorem start_lt_iff {a b : List UInt8} {i : Nat} {sp : LineSpan} (hi : (lines (a ++ b))[i]? = some sp) :
    sp.start < a.length ↔ i < countLines a := by
  have h := start_lt_iff_from (Nat.le_refl 0) a b hi
  rwa [Nat.zero_add] at h

/-- A line before the last of the first part of a text ends in it. -/
theorem stop_le_of_lt {a b : List UInt8} {i : Nat} {sp : LineSpan} (hi : (lines (a ++ b))[i]? = some sp)
    (hlt : i + 1 < countLines a) : sp.stop ≤ a.length := by
  have hlen : i + 1 < (lines (a ++ b)).length := by
    rw [length_lines]
    exact Nat.lt_of_lt_of_le hlt (countLines_le_append a b)
  have hi' : (lines (a ++ b))[i + 1]? = some (lines (a ++ b))[i + 1] := List.getElem?_eq_getElem hlen
  have hle := stop_le_start (Nat.le_refl 0) hi hi'
  have hlt' := (start_lt_iff hi').mpr hlt
  omega

/-- The line that a byte of a text lies in, the first that ends behind it. -/
theorem findIdx_stop {t : List UInt8} {off : Nat} (h : off < t.length) :
    (lines t).findIdx (fun sp => decide (off < sp.stop)) + 1 = countLines (t.take (off + 1)) ∧
      countLines (t.take (off + 1)) ≤ countLines t := by
  have hlen : (t.take (off + 1)).length = off + 1 := by
    rw [List.length_take]
    omega
  have happ : t.take (off + 1) ++ t.drop (off + 1) = t := List.take_append_drop ..
  have hmono : countLines (t.take (off + 1)) ≤ countLines t := by
    have := countLines_le_append (t.take (off + 1)) (t.drop (off + 1))
    rwa [happ] at this
  have hpos : 0 < countLines (t.take (off + 1)) := by
    cases t with
    | nil      => simp at h
    | cons c s => exact countFrom_pos false c _
  refine ⟨?_, hmono⟩
  -- the last of the lines that start at the byte or before it
  have hk : countLines (t.take (off + 1)) - 1 < (lines t).length := by
    rw [length_lines]
    omega
  have hstart : ∀ {i : Nat} {sp : LineSpan}, (lines t)[i]? = some sp →
      (sp.start < off + 1 ↔ i < countLines (t.take (off + 1))) := by
    intro i sp hi
    rw [← happ] at hi
    rw [← start_lt_iff hi, hlen]
  obtain ⟨sp, hsp⟩ : ∃ sp, (lines t)[countLines (t.take (off + 1)) - 1]? = some sp :=
    ⟨_, List.getElem?_eq_getElem hk⟩
  have hidx : (lines t).findIdx (fun sp => decide (off < sp.stop)) = countLines (t.take (off + 1)) - 1 := by
    rw [List.findIdx_eq hk]
    constructor
    · -- the next one starts behind the byte
      have hget : (lines t)[countLines (t.take (off + 1)) - 1] = sp :=
        (List.getElem?_eq_some_iff.mp hsp).2
      rw [hget]
      apply decide_eq_true
      cases hnext : (lines t)[countLines (t.take (off + 1)) - 1 + 1]? with
      | none =>
        have := stop_last (Nat.le_refl 0) hsp hnext
        omega
      | some sp' =>
        have h1 := stop_eq_start (Nat.le_refl 0) hsp hnext
        have h2 := hstart hnext
        omega
    · -- those before it end where a line starts that starts at the byte or before it
      intro j hj
      apply decide_eq_false
      have hj' : j + 1 < (lines t).length := by omega
      obtain ⟨sp', hsp'⟩ : ∃ sp', (lines t)[j + 1]? = some sp' := ⟨_, List.getElem?_eq_getElem hj'⟩
      have h1 := stop_eq_start (Nat.le_refl 0) (List.getElem?_eq_getElem (Nat.lt_of_succ_lt hj')) hsp'
      have h2 := hstart hsp'
      omega
  omega

/-- A line starts before a later one ends. -/
theorem start_lt_stop {t : List UInt8} {i j : Nat} {sp sp' : LineSpan} (hi : (lines t)[i]? = some sp)
    (hj : (lines t)[j]? = some sp') (hij : i ≤ j) : sp.start < sp'.stop := by
  induction j generalizing sp' with
  | zero =>
    obtain rfl := Nat.le_zero.mp hij
    obtain rfl := Option.some.inj (hi.symm.trans hj)
    have := bounds_linesFrom (Nat.le_refl 0) (List.mem_of_getElem? hi)
    omega
  | succ j ih =>
    have hb := bounds_linesFrom (Nat.le_refl 0) (List.mem_of_getElem? hj)
    rcases Nat.of_le_succ hij with hle | rfl
    · have hlt : j < (lines t).length := Nat.lt_of_succ_lt (List.getElem?_eq_some_iff.mp hj).1
      obtain ⟨prev, hprev⟩ : ∃ prev, (lines t)[j]? = some prev := ⟨_, List.getElem?_eq_getElem hlt⟩
      have h1 := ih hprev hle
      have h2 := stop_le_start (Nat.le_refl 0) hprev hj
      omega
    · obtain rfl := Option.some.inj (hi.symm.trans hj)
      omega

/-- The text before a line has the lines before it. -/
theorem countLines_take {t : List UInt8} {k : Nat} {sp : LineSpan} (hk : (lines t)[k]? = some sp) :
    countLines (t.take sp.start) = k := by
  have hle : sp.start ≤ t.length := by
    have := bounds_linesFrom (Nat.le_refl 0) (List.mem_of_getElem? hk)
    omega
  have hlen : (t.take sp.start).length = sp.start := by
    rw [List.length_take, Nat.min_eq_left hle]
  have happ : t.take sp.start ++ t.drop sp.start = t := List.take_append_drop ..
  have hge : ¬ k < countLines (t.take sp.start) := by
    rw [← happ] at hk
    rw [← start_lt_iff hk, hlen]
    exact Nat.lt_irrefl _
  cases k with
  | zero => omega
  | succ k =>
    -- the line before starts earlier
    have hlt : k < (lines t).length := Nat.lt_of_succ_lt (List.getElem?_eq_some_iff.mp hk).1
    obtain ⟨prev, hk'⟩ : ∃ prev, (lines t)[k]? = some prev := ⟨_, List.getElem?_eq_getElem hlt⟩
    have hstart : prev.start < sp.start := by
      have := stop_le_start (Nat.le_refl 0) hk' hk
      have := bounds_linesFrom (Nat.le_refl 0) (List.mem_of_getElem? hk')
      omega
    rw [← happ] at hk'
    have hcount := (start_lt_iff hk').mp (hlen.symm ▸ hstart)
    omega

/-- A terminator behind the last line of a text ends that line. -/
theorem countFrom_concat_lf (inside : Bool) {t : List UInt8} (hne : t ≠ [])
    (hlast : t.getLast? ≠ some 0x0a) : countFrom inside (t ++ [0x0a]) = countFrom inside t := by
  induction t using byteInduction generalizing inside with
  | nil => exact absurd rfl hne
  | cons c s ih ih' =>
    cases s with
    | nil =>
      have hc : c ≠ 0x0a := fun h => hlast (h ▸ rfl)
      by_cases hcr : c = 0x0d <;> simp [countFrom, hc, hcr]
    | cons d s =>
      have hlast' : (d :: s).getLast? ≠ some 0x0a := by simpa using hlast
      have h1 := fun b => ih b (List.cons_ne_nil d s) hlast'
      rw [List.cons_append, countFrom_cons, countFrom_cons inside c (d :: s), h1, h1]
      have hhead : (d :: s ++ [0x0a]).head? = (d :: s).head? := rfl
      rw [hhead]
      by_cases hcr : c = 0x0d ∧ (d :: s).head? = some 0x0a
      · rw [if_pos hcr, if_pos hcr]
        cases s with
        | nil      => exact absurd hcr.2 hlast'
        | cons e s =>
          have hlast'' : (e :: s).getLast? ≠ some 0x0a := by simpa using hlast'
          exact congrArg (· + 1) (ih' false (List.cons_ne_nil e s) hlast'')
      · rw [if_neg hcr, if_neg hcr]

/-! ### Content -/

/-- The content of a line. -/
def LineSpan.content (t : List UInt8) (sp : LineSpan) : List UInt8 :=
  (t.drop sp.start).take (sp.contentEnd - sp.start)

/-- The content of the line with a number, from 1. -/
def lineAt (t : List UInt8) (n : Nat) : Option (List UInt8) :=
  if n = 0 then none else ((lines t)[n - 1]?).map (LineSpan.content t)

/-- The contents of the lines of a text. -/
def lineContents (t : List UInt8) : List (List UInt8) := (lines t).map (LineSpan.content t)

/-- The contents of the lines of the text, the first of which begins with `acc`. -/
def contentsFrom : List UInt8 → List UInt8 → List (List UInt8)
  | acc, []          => if acc = [] then [] else [acc]
  | acc, [c]         => if Newline c then [acc] else [acc ++ [c]]
  | acc, c :: d :: s =>
    if c = 0x0d ∧ d = 0x0a then acc :: contentsFrom [] s
    else if Newline c then acc :: contentsFrom [] (d :: s)
    else contentsFrom (acc ++ [c]) (d :: s)

theorem contentsFrom_cons (acc : List UInt8) (c : UInt8) (s : List UInt8) :
    contentsFrom acc (c :: s) =
      if c = 0x0d ∧ s.head? = some 0x0a then acc :: contentsFrom [] s.tail
      else if Newline c then acc :: contentsFrom [] s
      else contentsFrom (acc ++ [c]) s := by
  cases s <;> simp [contentsFrom]

/-- The content of a line that begins with `acc`. -/
theorem content_first (pre acc post : List UInt8) (stop : Nat) :
    LineSpan.content (pre ++ acc ++ post) ⟨pre.length, pre.length + acc.length, stop⟩ = acc := by
  unfold LineSpan.content
  rw [List.append_assoc, List.drop_left, Nat.add_sub_cancel_left, List.take_left]

theorem map_content_linesFrom (pre acc t : List UInt8) :
    (linesFrom pre.length (pre.length + acc.length) t).map (LineSpan.content (pre ++ acc ++ t)) =
      contentsFrom acc t := by
  induction t using byteInduction generalizing pre acc with
  | nil =>
    have hfirst := content_first pre acc [] (pre.length + acc.length)
    rw [linesFrom, contentsFrom]
    cases acc with
    | nil => rw [if_neg (by simp), if_pos rfl, List.map_nil]
    | cons c s =>
      have hlt : pre.length < pre.length + (c :: s).length := by
        rw [List.length_cons]
        omega
      rw [if_pos hlt, if_neg (List.cons_ne_nil c s), List.map_singleton, hfirst]
  | cons c s ih ih' =>
    have hfirst := content_first pre acc (c :: s)
    rw [linesFrom_cons, contentsFrom_cons]
    split_ifs with hcr hnl
    · -- behind both bytes of the terminator
      obtain ⟨s, rfl⟩ : ∃ s', s = 0x0a :: s' := List.head?_eq_some_iff.mp hcr.2
      have hrest := ih' (pre ++ acc ++ [c, 0x0a]) []
      have htext : pre ++ acc ++ [c, 0x0a] ++ [] ++ s = pre ++ acc ++ c :: 0x0a :: s := by simp
      have hlen : (pre ++ acc ++ [c, 0x0a]).length = pre.length + acc.length + 2 := by simp [Nat.add_assoc]
      rw [List.tail_cons, htext, List.length_nil, Nat.add_zero, hlen] at hrest
      rw [List.map_cons, hfirst, List.tail_cons, hrest]
    · have hrest := ih (pre ++ acc ++ [c]) []
      have htext : pre ++ acc ++ [c] ++ [] ++ s = pre ++ acc ++ c :: s := by simp
      have hlen : (pre ++ acc ++ [c]).length = pre.length + acc.length + 1 := by simp [Nat.add_assoc]
      rw [htext, List.length_nil, Nat.add_zero, hlen] at hrest
      rw [List.map_cons, hfirst, hrest]
    · have hrest := ih pre (acc ++ [c])
      have htext : pre ++ (acc ++ [c]) ++ s = pre ++ acc ++ c :: s := by simp
      have hlen : pre.length + (acc ++ [c]).length = pre.length + acc.length + 1 := by
        rw [List.length_append, List.length_singleton, Nat.add_assoc]
      rw [htext, hlen] at hrest
      exact hrest

theorem lineContents_eq (t : List UInt8) : lineContents t = contentsFrom [] t := map_content_linesFrom [] [] t

@[simp] theorem length_lineContents (t : List UInt8) : (lineContents t).length = countLines t := by
  rw [lineContents, List.length_map, length_lines]

/-! ### Texts put together at a line end -/

/-- A text that ends with a whole terminator, seen from the text behind it. -/
def EndsLine (a b : List UInt8) : Prop :=
  (∃ c, a.getLast? = some c ∧ Newline c) ∧ ¬ (a.getLast? = some 0x0d ∧ b.head? = some 0x0a)

theorem EndsLine.tail {c d : UInt8} {a b : List UInt8} (h : EndsLine (c :: d :: a) b) :
    EndsLine (d :: a) b := by
  simpa [EndsLine] using h

theorem contentsFrom_append {a b : List UInt8} (h : EndsLine a b) (acc : List UInt8) :
    contentsFrom acc (a ++ b) = contentsFrom acc a ++ contentsFrom [] b := by
  induction a using byteInduction generalizing acc with
  | nil =>
    obtain ⟨⟨c, hc, -⟩, -⟩ := h
    simp at hc
  | cons c a ih ih' =>
    cases a with
    | nil =>
      -- the last byte is the end of a line
      obtain ⟨⟨c', hc', hnl⟩, hcr⟩ := h
      obtain rfl : c = c' := Option.some.inj hc'
      have hcr' : ¬ (c = 0x0d ∧ b.head? = some 0x0a) := fun hh => hcr ⟨congrArg some hh.1, hh.2⟩
      rw [List.singleton_append, contentsFrom_cons, if_neg hcr', if_pos hnl, contentsFrom, if_pos hnl]
      rfl
    | cons d a =>
      rw [List.cons_append, contentsFrom_cons acc c (d :: a ++ b), contentsFrom_cons acc c (d :: a)]
      have hhead : (d :: a ++ b).head? = (d :: a).head? := rfl
      rw [hhead]
      have hrest := ih h.tail
      by_cases hcr : c = 0x0d ∧ (d :: a).head? = some 0x0a
      · rw [if_pos hcr, if_pos hcr]
        cases a with
        | nil      => rfl
        | cons e a => exact congrArg (acc :: ·) (ih' h.tail.tail [])
      · rw [if_neg hcr, if_neg hcr]
        split_ifs
        · rw [hrest]
          rfl
        · exact hrest _

/-- Where a terminator goes over from one text to the next, two lines become one. -/
theorem countFrom_append_merge {a b : List UInt8} (ha : a.getLast? = some 0x0d) (hb : b.head? = some 0x0a)
    (inside : Bool) : countFrom inside (a ++ b) + 1 = countFrom inside a + countFrom false b := by
  induction a using byteInduction generalizing inside with
  | nil => simp at ha
  | cons c a ih ih' =>
    cases a with
    | nil =>
      obtain ⟨b, rfl⟩ : ∃ b', b = 0x0a :: b' := List.head?_eq_some_iff.mp hb
      obtain rfl : c = 0x0d := Option.some.inj ha
      rw [List.singleton_append, countFrom_cons, if_pos ⟨rfl, rfl⟩, countFrom_lf, List.tail_cons, countFrom]
      omega
    | cons d a =>
      have ha' : (d :: a).getLast? = some 0x0d := by simpa using ha
      have h1 := fun i => ih ha' i
      rw [List.cons_append, countFrom_cons inside c (d :: a ++ b), countFrom_cons inside c (d :: a)]
      have hhead : (d :: a ++ b).head? = (d :: a).head? := rfl
      rw [hhead]
      by_cases hcr : c = 0x0d ∧ (d :: a).head? = some 0x0a
      · rw [if_pos hcr, if_pos hcr]
        cases a with
        | nil =>
          obtain rfl : d = 0x0a := Option.some.inj hcr.2
          exact absurd ha' (by decide)
        | cons e a =>
          have h2 := ih' (by simpa using ha') false
          simp only [List.tail_cons, List.cons_append] at h2 ⊢
          omega
      · rw [if_neg hcr, if_neg hcr]
        have h2 := h1 false
        have h3 := h1 true
        split_ifs <;> omega

/-- A line feed behind an unfinished last line finishes it. -/
theorem contentsFrom_concat_lf (acc : List UInt8) {t : List UInt8} (hne : t ≠ [])
    (hlast : t.getLast? ≠ some 0x0a) : contentsFrom acc (t ++ [0x0a]) = contentsFrom acc t := by
  induction t using byteInduction generalizing acc with
  | nil => exact absurd rfl hne
  | cons c s ih ih' =>
    cases s with
    | nil =>
      have hc : c ≠ 0x0a := fun h => hlast (h ▸ rfl)
      by_cases hcr : c = 0x0d <;> simp [contentsFrom, Newline, hc, hcr]
    | cons d s =>
      have hlast' : (d :: s).getLast? ≠ some 0x0a := by simpa using hlast
      have h1 := fun acc => ih acc (List.cons_ne_nil d s) hlast'
      rw [List.cons_append, contentsFrom_cons, contentsFrom_cons acc c (d :: s), h1, h1]
      have hhead : (d :: s ++ [0x0a]).head? = (d :: s).head? := rfl
      rw [hhead]
      by_cases hcr : c = 0x0d ∧ (d :: s).head? = some 0x0a
      · rw [if_pos hcr, if_pos hcr]
        cases s with
        | nil      => exact absurd hcr.2 hlast'
        | cons e s =>
          have hlast'' : (e :: s).getLast? ≠ some 0x0a := by simpa using hlast'
          exact congrArg (acc :: ·) (ih' [] (List.cons_ne_nil e s) hlast'')
      · rw [if_neg hcr, if_neg hcr]

/-- A line that does not begin the text starts behind a whole terminator. -/
theorem endsLine_of_start {start pos : Nat} (h : start ≤ pos) {a b : List UInt8} (ha : a ≠ []) {sp : LineSpan}
    (hsp : sp ∈ linesFrom start pos (a ++ b)) (heq : sp.start = pos + a.length) : EndsLine a b := by
  induction a using byteInduction generalizing start pos with
  | nil => exact absurd rfl ha
  | cons c a ih ih' =>
    rw [List.cons_append, linesFrom_cons] at hsp
    cases a with
    | nil =>
      rw [List.length_singleton] at heq
      rw [List.nil_append] at hsp
      split_ifs at hsp with hcr hnl
      · -- the next line starts behind both bytes
        rcases List.mem_cons.mp hsp with rfl | hsp
        · simp only at heq
          omega
        · obtain ⟨i, hi⟩ := List.mem_iff_getElem?.mp hsp
          rcases start_linesFrom (Nat.le_refl _) hi with ⟨-, h'⟩ | ⟨-, h'⟩ <;> omega
      · exact ⟨⟨c, rfl, hnl⟩, fun hh => hcr ⟨Option.some.inj hh.1, hh.2⟩⟩
      · obtain ⟨i, hi⟩ := List.mem_iff_getElem?.mp hsp
        rcases start_linesFrom (Nat.le_succ_of_le h) hi with ⟨-, h'⟩ | ⟨-, h'⟩ <;> omega
    | cons d a =>
      rw [List.length_cons] at heq
      have hup : EndsLine (d :: a) b → EndsLine (c :: d :: a) b := fun h => by simpa [EndsLine] using h
      split_ifs at hsp with hcr hnl
      · rcases List.mem_cons.mp hsp with rfl | hsp
        · simp only [List.length_cons] at heq
          omega
        · cases a with
          | nil =>
            -- behind the two bytes there is a new line
            obtain rfl : d = 0x0a := Option.some.inj hcr.2
            exact ⟨⟨0x0a, rfl, Or.inl rfl⟩, fun hh => absurd hh.1 (by simp)⟩
          | cons e a =>
            have h1 := ih' (Nat.le_refl (pos + 2)) (List.cons_ne_nil e a) hsp
              (by simp only [List.tail_cons, List.length_cons] at heq ⊢; omega)
            exact hup (by simpa [EndsLine] using h1)
      · rcases List.mem_cons.mp hsp with rfl | hsp
        · simp only [List.length_cons] at heq
          omega
        · exact hup (ih (Nat.le_refl _) (List.cons_ne_nil d a) hsp (by rw [heq, List.length_cons]; omega))
      · exact hup (ih (Nat.le_succ_of_le h) (List.cons_ne_nil d a) hsp (by rw [heq, List.length_cons]; omega))

/-- A line without a terminator ends with the text. -/
theorem stop_of_unterminated {start pos : Nat} {t : List UInt8} {sp : LineSpan}
    (hsp : sp ∈ linesFrom start pos t) (heq : sp.stop ≤ sp.contentEnd) : sp.stop = pos + t.length := by
  induction t using byteInduction generalizing start pos with
  | nil =>
    rw [linesFrom] at hsp
    split_ifs at hsp
    · rcases List.mem_singleton.mp hsp with rfl
      rfl
    · simp at hsp
  | cons c s ih ih' =>
    rw [linesFrom_cons] at hsp
    rw [List.length_cons]
    split_ifs at hsp with hcr
    · obtain ⟨s, rfl⟩ : ∃ s', s = 0x0a :: s' := List.head?_eq_some_iff.mp hcr.2
      rcases List.mem_cons.mp hsp with rfl | hsp
      · simp only at heq
        omega
      · have := ih' hsp
        simp only [List.tail_cons, List.length_cons] at this ⊢
        omega
    · rcases List.mem_cons.mp hsp with rfl | hsp
      · simp only at heq
        omega
      · have := ih hsp
        omega
    · have := ih hsp
      omega

end DS4.Lib
