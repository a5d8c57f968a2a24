import DS4.Lib.Utf8

namespace DS4.Lib

/-!
# UTF-8: parts of a text

What is cut out of a valid text between two boundaries is valid, and so is what a byte-wise
rewriting of its ASCII characters makes of it.

* `Valid.slice` — between two boundaries.
* `CharAt s i n` — a character of `n` bytes stands at `i`; `CharAt.le_of_lt` — the next boundary
  is behind it.
* `Valid.takeWhile` — up to an ASCII byte.
* `Valid.flatMap` — ASCII characters rewritten.
-/

theorem Lead.unique {b : UInt8} {n m : Nat} (h : Lead b n) (h' : Lead b m) : n = m := by
  rcases h with ⟨rfl, h⟩ | ⟨rfl, h⟩ | ⟨rfl, h⟩ | ⟨rfl, h⟩ <;>
    rcases h' with ⟨rfl, h'⟩ | ⟨rfl, h'⟩ | ⟨rfl, h'⟩ | ⟨rfl, h'⟩ <;> omega

/-- A character of one byte is ASCII, the bytes of the others are not. -/
theorem Lead.ascii_iff {b : UInt8} {n : Nat} (h : Lead b n) : b.toNat < 0x80 ↔ n = 1 := by
  rcases h with ⟨rfl, h⟩ | ⟨rfl, h⟩ | ⟨rfl, h⟩ | ⟨rfl, h⟩ <;> omega

theorem Lead.high {b : UInt8} {n : Nat} (h : Lead b n) (hn : 1 < n) : 0x80 ≤ b.toNat := by
  have hiff := h.ascii_iff
  omega

/-! ### Two ways to cut -/

/-- The first character of a text is determined by its first byte. -/
theorem encodeChar_append_cancel {c d : Char} {x y : List UInt8}
    (h : String.utf8EncodeChar c ++ x = String.utf8EncodeChar d ++ y) :
    String.utf8EncodeChar c = String.utf8EncodeChar d ∧ x = y := by
  obtain ⟨b, t, hc, hlead, -⟩ := encodeChar_shape c
  obtain ⟨b', t', hd, hlead', -⟩ := encodeChar_shape d
  have hlen : (String.utf8EncodeChar c).length = (String.utf8EncodeChar d).length := by
    rw [hc, hd] at h
    obtain ⟨rfl, -⟩ := List.cons.inj h
    rw [hc, hd, List.length_cons, List.length_cons]
    exact hlead.unique hlead'
  exact List.append_inj h hlen

/-- The shorter of two cuts of a text is a cut of the longer one. -/
theorem encode_append_prefix {l' l : List Char} {x y : List UInt8}
    (h : encode l' ++ x = encode l ++ y) (hle : (encode l').length ≤ (encode l).length) :
    ∃ m, encode l = encode l' ++ encode m := by
  induction l' generalizing l with
  | nil => exact ⟨l, rfl⟩
  | cons c l' ih =>
    cases l with
    | nil =>
      -- a character has at least one byte
      obtain ⟨b, t, hc, -, -⟩ := encodeChar_shape c
      rw [encode_cons, hc] at hle
      simp [encode] at hle
    | cons d l =>
      rw [encode_cons, encode_cons, List.append_assoc, List.append_assoc] at h
      obtain ⟨hcd, hrest⟩ := encodeChar_append_cancel h
      rw [encode_cons, encode_cons, hcd, List.length_append, List.length_append] at hle
      obtain ⟨m, hm⟩ := ih hrest (by omega)
      exact ⟨m, by rw [encode_cons, encode_cons, hcd, hm, List.append_assoc]⟩

variable {s : List UInt8} {i j n : Nat}

theorem Boundary.valid (h : Boundary s i) : Valid s := by
  obtain ⟨l, r, rfl, -⟩ := h
  exact ⟨l ++ r, (encode_append l r).symm⟩

theorem Boundary.le (h : Boundary s i) : i ≤ s.length := by
  obtain ⟨l, r, rfl, rfl⟩ := h
  rw [List.length_append]
  exact Nat.le_add_right _ _

/-- **Between two boundaries** a text is valid. -/
theorem Valid.slice (hi : Boundary s i) (hj : Boundary s j) (hij : i ≤ j) :
    Valid ((s.take j).drop i) := by
  obtain ⟨l, r, rfl, rfl⟩ := hj
  obtain ⟨l', r', heq, rfl⟩ := hi
  obtain ⟨m, hm⟩ := encode_append_prefix heq.symm hij
  rw [List.take_left, hm, List.drop_left]
  exact ⟨m, rfl⟩

theorem Boundary.take (h : Boundary s i) : Valid (s.take i) := by
  have := Valid.slice (boundary_zero h.valid) h (Nat.zero_le i)
  rwa [List.drop_zero] at this

theorem Boundary.drop (h : Boundary s i) : Valid (s.drop i) := by
  have := Valid.slice h (boundary_length h.valid) h.le
  rwa [List.take_length] at this

/-- A boundary of a text is one of every longer text. -/
theorem Boundary.append {t : List UInt8} (h : Boundary s i) (ht : Valid t) : Boundary (s ++ t) i := by
  obtain ⟨l, r, rfl, rfl⟩ := h
  obtain ⟨cs, rfl⟩ := ht
  exact ⟨l, r ++ cs, by rw [encode_append, List.append_assoc], rfl⟩

/-! ### The character at a boundary -/

/-- A character of `n` bytes stands at `i`. -/
structure CharAt (s : List UInt8) (i n : Nat) : Prop where
  start : Boundary s i
  stop : Boundary s (i + n)
  lead : ∃ x, s[i]? = some x ∧ Lead x n
  tail : ∀ k, i < k → k < i + n → ∃ y, s[k]? = some y ∧ Tail y

theorem Boundary.charAt (h : Boundary s i) (hi : i < s.length) : ∃ n, CharAt s i n := by
  obtain ⟨b, n, hb, hbn, hlt, hle, hlead, htail⟩ := h.valid.around (Nat.succ_pos i) hi
  -- the character around the byte starts at it
  have heq : b = i := by
    by_contra hne
    exact h.not_inside htail (by omega) (by omega)
  subst heq
  exact ⟨n, hb, hbn, hlead, htail⟩

theorem CharAt.pos (h : CharAt s i n) : 0 < n := by
  obtain ⟨x, -, hlead⟩ := h.lead
  exact hlead.le_four.1

/-- **The next boundary** is behind the character. -/
theorem CharAt.le_of_lt (h : CharAt s i n) (hj : Boundary s j) (hij : i < j) : i + n ≤ j := by
  by_contra hlt
  exact hj.not_inside h.tail hij (by omega)

/-- No byte of a character of several bytes is ASCII. -/
theorem CharAt.high (h : CharAt s i n) (hn : 1 < n) {k : Nat} (hik : i ≤ k) (hk : k < i + n) :
    ∃ y, s[k]? = some y ∧ 0x80 ≤ y.toNat := by
  obtain ⟨x, hx, hlead⟩ := h.lead
  rcases Nat.eq_or_lt_of_le hik with rfl | hlt
  · exact ⟨x, hx, hlead.high hn⟩
  · obtain ⟨y, hy, htail⟩ := h.tail k hlt hk
    exact ⟨y, hy, htail.1⟩

/-! ### Rewriting ASCII -/

/-- A byte that is not ASCII is no text. -/
theorem not_valid_singleton {b : UInt8} (h : 0x80 ≤ b.toNat) : ¬ Valid [b] := by
  intro hvalid
  obtain ⟨i, n, -, hend, hlt, hle, ⟨x, hx, hlead⟩, -⟩ := hvalid.around Nat.zero_lt_one (Nat.le_refl 1)
  obtain rfl : i = 0 := by omega
  have hlength : 0 + n ≤ 1 := hend.le
  have hascii := hlead.ascii_iff.mpr (by omega)
  rw [← Option.some.inj hx] at hascii
  omega

theorem encodeChar_high {c : Char} (h : (String.utf8EncodeChar c).length ≠ 1) :
    ∀ x ∈ String.utf8EncodeChar c, 0x80 ≤ x.toNat := by
  obtain ⟨b, t, hc, hlead, htail⟩ := encodeChar_shape c
  rw [hc, List.length_cons] at h
  rw [hc]
  have hpos := hlead.le_four.1
  intro x hx
  rcases List.mem_cons.mp hx with rfl | hx
  · exact hlead.high (by omega)
  · exact (htail x hx).1

/-- **Cut before an ASCII byte.** What stands before the first byte that fails `p` is valid, if
    only ASCII bytes fail. -/
theorem Valid.takeWhile {p : UInt8 → Bool} (h : Valid s)
    (hp : ∀ b : UInt8, 0x80 ≤ b.toNat → p b = true) : Valid (s.takeWhile p) := by
  have hsplit := List.takeWhile_append_dropWhile (p := p) (l := s)
  cases hdrop : s.dropWhile p with
  | nil =>
    rw [hdrop, List.append_nil] at hsplit
    rwa [hsplit]
  | cons b t =>
    -- the first byte that fails is a character of its own
    have hfail : p b = false := by
      have hhead := List.head?_dropWhile_not p s
      rw [hdrop] at hhead
      exact hhead
    have hascii : b.toNat < 0x80 := by
      by_contra hge
      rw [hp b (by omega)] at hfail
      exact absurd hfail (by simp)
    have hget : s[(s.takeWhile p).length]? = some b := by
      rw [hdrop] at hsplit
      have happend : (s.takeWhile p ++ b :: t)[(s.takeWhile p).length]? = some b := by
        rw [List.getElem?_append_right (Nat.le_refl _), Nat.sub_self]
        rfl
      rwa [hsplit] at happend
    have htake : s.take (s.takeWhile p).length = s.takeWhile p :=
      (List.prefix_iff_eq_take.mp (List.takeWhile_prefix p)).symm
    rw [← htake]
    exact (h.boundary_of_ascii hget hascii).1.take

/-- **Rewriting ASCII characters** to valid texts leaves a valid text. -/
theorem Valid.flatMap {f : UInt8 → List UInt8} (h : Valid s)
    (hascii : ∀ b : UInt8, b.toNat < 0x80 → Valid (f b))
    (hhigh : ∀ b : UInt8, 0x80 ≤ b.toNat → f b = [b]) : Valid (s.flatMap f) := by
  obtain ⟨cs, rfl⟩ := h
  induction cs with
  | nil => exact ⟨[], rfl⟩
  | cons c cs ih =>
    rw [encode_cons, List.flatMap_append]
    refine Valid.append ?_ ih
    by_cases hone : (String.utf8EncodeChar c).length = 1
    · obtain ⟨b, t, hc, hlead, -⟩ := encodeChar_shape c
      rw [hc, List.length_cons] at hone
      have hnil : t = [] := List.eq_nil_of_length_eq_zero (by omega)
      subst hnil
      rw [hc, List.flatMap_singleton]
      exact hascii b (hlead.ascii_iff.mpr rfl)
    -- the bytes of the other characters are kept
    · have hkeep : ∀ t : List UInt8, (∀ x ∈ t, 0x80 ≤ x.toNat) → t.flatMap f = t := by
        intro t ht
        induction t with
        | nil => rfl
        | cons x t iht =>
          rw [List.flatMap_cons, hhigh x (ht x List.mem_cons_self),
            iht fun y hy => ht y (List.mem_cons_of_mem x hy)]
          rfl
      rw [hkeep _ (encodeChar_high hone)]
      exact ⟨[c], (List.append_nil _).symm⟩

end DS4.Lib
