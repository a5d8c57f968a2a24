import Mathlib.Data.List.Basic
import Mathlib.Data.List.Flatten

namespace DS4.Lib

/-!
# UTF-8: where characters start in a text

* `Valid s` — `s` is the encoding of some characters; `Boundary s i` — a character of `s` starts
  at `i`, or `s` ends there.
* `Lead b n`, `Tail b` — the first byte of a character of `n` bytes, and the others.
* `Valid.around` — the character around a position.
* `Valid.boundary_of_ascii` — a byte below 0x80 is a character.
* `encodePoint` — the encoding of any code point; `not_valid_of_surrogate` — that of a surrogate is invalid.
-/

/-- The encoding of some characters. -/
def encode (cs : List Char) : List UInt8 := cs.flatMap String.utf8EncodeChar

/-- `s` is valid UTF-8. -/
def Valid (s : List UInt8) : Prop := ∃ cs, s = encode cs

/-- `i` is between two characters of `s`, or at one of its ends. -/
def Boundary (s : List UInt8) (i : Nat) : Prop :=
  ∃ l r, s = encode l ++ encode r ∧ i = (encode l).length

/-- `b` is the first byte of a character of `n` bytes. -/
def Lead (b : UInt8) (n : Nat) : Prop :=
  (n = 1 ∧ b.toNat < 0x80) ∨ (n = 2 ∧ 0xc2 ≤ b.toNat ∧ b.toNat ≤ 0xdf) ∨
    (n = 3 ∧ 0xe0 ≤ b.toNat ∧ b.toNat ≤ 0xef) ∨ (n = 4 ∧ 0xf0 ≤ b.toNat ∧ b.toNat ≤ 0xf4)

/-- `b` is a continuation byte. -/
def Tail (b : UInt8) : Prop := 0x80 ≤ b.toNat ∧ b.toNat ≤ 0xbf

theorem Lead.le_four {b : UInt8} {n : Nat} (h : Lead b n) : 0 < n ∧ n ≤ 4 := by
  obtain ⟨rfl, -⟩ | ⟨rfl, -⟩ | ⟨rfl, -⟩ | ⟨rfl, -⟩ := h <;> omega

theorem Lead.not_tail {b : UInt8} {n : Nat} (h : Lead b n) : ¬ Tail b := by
  rintro ⟨h1, h2⟩
  obtain ⟨-, h⟩ | ⟨-, h, -⟩ | ⟨-, h, -⟩ | ⟨-, h, -⟩ := h <;> omega

/-- **A character.** Its encoding is a first byte and as many continuation bytes as that says. -/
theorem encodeChar_shape (c : Char) :
    ∃ b t, String.utf8EncodeChar c = b :: t ∧ Lead b (t.length + 1) ∧ ∀ x ∈ t, Tail x := by
  have hc : c.val.toNat < 0x110000 := by
    obtain h | ⟨-, h⟩ := c.valid
    · exact Nat.lt_trans h (by omega)
    · exact h
  unfold String.utf8EncodeChar
  dsimp only
  generalize c.val.toNat = v at hc
  by_cases h1 : v ≤ 0x7f
  · rw [if_pos h1]
    refine ⟨_, [], rfl, Or.inl ⟨rfl, ?_⟩, fun x hx => absurd hx List.not_mem_nil⟩
    rw [UInt8.toNat_ofNat']
    omega
  rw [if_neg h1]
  by_cases h2 : v ≤ 0x7ff
  · rw [if_pos h2]
    refine ⟨_, _, rfl, Or.inr (Or.inl ⟨rfl, ?_⟩), ?_⟩
    · rw [UInt8.toNat_ofNat']
      omega
    · intro x hx
      obtain rfl := List.mem_singleton.mp hx
      unfold Tail
      rw [UInt8.toNat_ofNat']
      omega
  rw [if_neg h2]
  by_cases h3 : v ≤ 0xffff
  · rw [if_pos h3]
    refine ⟨_, _, rfl, Or.inr (Or.inr (Or.inl ⟨rfl, ?_⟩)), ?_⟩
    · rw [UInt8.toNat_ofNat']
      omega
    · intro x hx
      simp only [List.mem_cons, List.not_mem_nil, or_false] at hx
      unfold Tail
      obtain rfl | rfl := hx <;> rw [UInt8.toNat_ofNat'] <;> omega
  · rw [if_neg h3]
    refine ⟨_, _, rfl, Or.inr (Or.inr (Or.inr ⟨rfl, ?_⟩)), ?_⟩
    · rw [UInt8.toNat_ofNat']
      omega
    · intro x hx
      simp only [List.mem_cons, List.not_mem_nil, or_false] at hx
      unfold Tail
      obtain rfl | rfl | rfl := hx <;> rw [UInt8.toNat_ofNat'] <;> omega

theorem encode_cons (c : Char) (cs : List Char) :
    encode (c :: cs) = String.utf8EncodeChar c ++ encode cs := List.flatMap_cons

theorem encode_append (l r : List Char) : encode (l ++ r) = encode l ++ encode r :=
  List.flatMap_append

theorem boundary_zero {s : List UInt8} (h : Valid s) : Boundary s 0 := by
  obtain ⟨cs, rfl⟩ := h
  exact ⟨[], cs, rfl, rfl⟩

theorem boundary_length {s : List UInt8} (h : Valid s) : Boundary s s.length := by
  obtain ⟨cs, rfl⟩ := h
  exact ⟨cs, [], (List.append_nil _).symm, rfl⟩

/-- A boundary behind a character. -/
theorem Boundary.shift {s : List UInt8} {i : Nat} (h : Boundary s i) (c : Char) :
    Boundary (String.utf8EncodeChar c ++ s) ((String.utf8EncodeChar c).length + i) := by
  obtain ⟨l, r, rfl, rfl⟩ := h
  exact ⟨c :: l, r, by rw [encode_cons, List.append_assoc], by rw [encode_cons, List.length_append]⟩

/-- **Around a position** stands a character: it starts at `b` before the position, has `n` bytes,
    and ends at or behind it. -/
theorem Valid.around {s : List UInt8} (h : Valid s) {i : Nat} (hpos : 0 < i) (hi : i ≤ s.length) :
    ∃ b n, Boundary s b ∧ Boundary s (b + n) ∧ b < i ∧ i ≤ b + n ∧
      (∃ x, s[b]? = some x ∧ Lead x n) ∧ ∀ j, b < j → j < b + n → ∃ y, s[j]? = some y ∧ Tail y := by
  obtain ⟨cs, rfl⟩ := h
  induction cs generalizing i with
  | nil => exact absurd hi (by simp [encode]; omega)
  | cons c cs ih =>
    obtain ⟨x, t, hc, hlead, htail⟩ := encodeChar_shape c
    rw [encode_cons] at hi ⊢
    by_cases hin : i ≤ (String.utf8EncodeChar c).length
    -- the first character
    · refine ⟨0, (String.utf8EncodeChar c).length, ⟨[], c :: cs, by rw [encode_cons]; rfl, rfl⟩,
        ⟨[c], cs, by simp [encode], by simp [encode]⟩, hpos, by omega, ⟨x, ?_, ?_⟩, ?_⟩
      · rw [hc]
        rfl
      · rw [hc]
        exact hlead
      · intro j hj hj'
        rw [Nat.zero_add] at hj'
        have hlen : (String.utf8EncodeChar c).length = t.length + 1 := by
          rw [hc]
          rfl
        obtain ⟨k, rfl⟩ : ∃ k, j = k + 1 := ⟨j - 1, by omega⟩
        have hkt : k < t.length := by omega
        refine ⟨t[k], ?_, htail _ (List.getElem_mem hkt)⟩
        rw [List.getElem?_append_left hj', hc, List.getElem?_cons_succ]
        exact List.getElem?_eq_getElem hkt
    -- a later one
    · rw [List.length_append] at hi
      obtain ⟨b, n, hb, hbn, hlt, hle, hx, htl⟩ :=
        ih (i := i - (String.utf8EncodeChar c).length) (by omega) (by omega)
      have hshift : ∀ j, (String.utf8EncodeChar c ++ encode cs)[
          (String.utf8EncodeChar c).length + j]? = (encode cs)[j]? := by
        intro j
        rw [List.getElem?_append_right (by omega), Nat.add_sub_cancel_left]
      refine ⟨(String.utf8EncodeChar c).length + b, n, hb.shift c, ?_, by omega, by omega, ?_, ?_⟩
      · rw [Nat.add_assoc]
        exact hbn.shift c
      · rw [hshift]
        exact hx
      · intro j hj hj'
        obtain ⟨y, hy, hyt⟩ := htl (j - (String.utf8EncodeChar c).length) (by omega) (by omega)
        refine ⟨y, ?_, hyt⟩
        rw [← hshift, show (String.utf8EncodeChar c).length +
          (j - (String.utf8EncodeChar c).length) = j by omega] at hy
        exact hy

/-- **ASCII.** A byte below 0x80 is a character of its own. -/
theorem Valid.boundary_of_ascii {s : List UInt8} (h : Valid s) {i : Nat} {x : UInt8}
    (hx : s[i]? = some x) (hlt : x.toNat < 0x80) : Boundary s i ∧ Boundary s (i + 1) := by
  obtain ⟨hi, -⟩ := List.getElem?_eq_some_iff.mp hx
  obtain ⟨b, n, hb, hbn, hbi, hin, ⟨y, hy, hlead⟩, htail⟩ := h.around (Nat.succ_pos i) hi
  by_cases hne : b = i
  · subst hne
    rw [hx] at hy
    obtain rfl := Option.some.inj hy
    obtain ⟨rfl, -⟩ | ⟨-, h1, -⟩ | ⟨-, h1, -⟩ | ⟨-, h1, -⟩ := hlead
    · exact ⟨hb, hbn⟩
    all_goals omega
  · obtain ⟨z, hz, hzt⟩ := htail i (by omega) (by omega)
    rw [hx] at hz
    obtain rfl := Option.some.inj hz
    exact absurd hzt.1 (by omega)

/-- No character straddles a boundary. -/
theorem Boundary.not_inside {s : List UInt8} {i b n : Nat} (h : Boundary s i)
    (htail : ∀ j, b < j → j < b + n → ∃ y, s[j]? = some y ∧ Tail y) (hb : b < i) (hbn : i < b + n) :
    False := by
  obtain ⟨l, r, rfl, rfl⟩ := h
  obtain ⟨y, hy, hyt⟩ := htail _ hb hbn
  rw [List.getElem?_append_right (Nat.le_refl _), Nat.sub_self] at hy
  cases r with
  | nil => exact absurd hy (by simp [encode])
  | cons c cs =>
    obtain ⟨x, t, hc, hlead, -⟩ := encodeChar_shape c
    rw [encode_cons, hc] at hy
    obtain rfl := Option.some.inj hy
    exact hlead.not_tail hyt

/-! ### Code points -/

/-- The encoding of a code point, which may be a surrogate. -/
def encodePoint (p : Nat) : List UInt8 :=
  if p ≤ 0x7f then [UInt8.ofNat p]
  else if p ≤ 0x7ff then [UInt8.ofNat (p / 64 % 0x20 + 0xc0), UInt8.ofNat (p % 0x40 + 0x80)]
  else if p ≤ 0xffff then
    [UInt8.ofNat (p / 4096 % 0x10 + 0xe0), UInt8.ofNat (p / 64 % 0x40 + 0x80), UInt8.ofNat (p % 0x40 + 0x80)]
  else
    [UInt8.ofNat (p / 262144 % 0x08 + 0xf0), UInt8.ofNat (p / 4096 % 0x40 + 0x80),
      UInt8.ofNat (p / 64 % 0x40 + 0x80), UInt8.ofNat (p % 0x40 + 0x80)]

/-- A code point that is no character. -/
def Surrogate (p : Nat) : Prop := 0xd800 ≤ p ∧ p ≤ 0xdfff

theorem encodePoint_toNat (c : Char) : encodePoint c.toNat = String.utf8EncodeChar c := rfl

/-- The encoding of characters only. -/
theorem encode_eq_flatMap (cs : List Char) : encode cs = (cs.map Char.toNat).flatMap encodePoint := by
  rw [List.flatMap_map]
  rfl

/-- Code points that are characters. -/
theorem valid_flatMap_encodePoint {ps : List Nat} (h : ∀ p ∈ ps, p < 0x110000 ∧ ¬ Surrogate p) :
    Valid (ps.flatMap encodePoint) := by
  have hchars : ∃ cs : List Char, cs.map Char.toNat = ps := by
    induction ps with
    | nil => exact ⟨[], rfl⟩
    | cons p ps ih =>
      obtain ⟨cs, hcs⟩ := ih fun q hq => h q (List.mem_cons_of_mem p hq)
      obtain ⟨hlt, hnot⟩ := h p List.mem_cons_self
      unfold Surrogate at hnot
      have hvalid : p.isValidChar := by
        unfold Nat.isValidChar
        omega
      refine ⟨Char.ofNat p :: cs, ?_⟩
      rw [List.map_cons, hcs]
      have hp : (Char.ofNat p).toNat = p := by
        rw [Char.ofNat, dif_pos hvalid]
        rfl
      rw [hp]
  obtain ⟨cs, rfl⟩ := hchars
  exact ⟨cs, (encode_eq_flatMap cs).symm⟩

/-- ASCII bytes are characters. -/
theorem valid_ascii {bs : List UInt8} (h : ∀ b ∈ bs, b.toNat ≤ 0x7f) : Valid bs := by
  have hpoints : (bs.map UInt8.toNat).flatMap encodePoint = bs := by
    induction bs with
    | nil => rfl
    | cons b bs ih =>
      rw [List.map_cons, List.flatMap_cons, ih fun x hx => h x (List.mem_cons_of_mem b hx), encodePoint,
        if_pos (h b List.mem_cons_self), UInt8.ofNat_toNat]
      rfl
  rw [← hpoints]
  refine valid_flatMap_encodePoint fun p hp => ?_
  obtain ⟨b, hb, rfl⟩ := List.mem_map.mp hp
  have hle := h b hb
  unfold Surrogate
  omega

theorem Valid.append {s t : List UInt8} (hs : Valid s) (ht : Valid t) : Valid (s ++ t) := by
  obtain ⟨cs, rfl⟩ := hs
  obtain ⟨ds, rfl⟩ := ht
  exact ⟨cs ++ ds, (encode_append cs ds).symm⟩

/-- Behind 0xed comes no byte above 0x9f: that would be a surrogate. -/
theorem Valid.after_ed {s : List UInt8} (h : Valid s) {i : Nat} {x y : UInt8} (hx : s[i]? = some x)
    (hed : x.toNat = 0xed) (hy : s[i + 1]? = some y) : y.toNat ≤ 0x9f := by
  obtain ⟨cs, rfl⟩ := h
  induction cs generalizing i with
  | nil => exact absurd hx (by simp [encode])
  | cons c cs ih =>
    obtain ⟨b, t, hc, -, htail⟩ := encodeChar_shape c
    rw [encode_cons] at hx hy
    by_cases hin : i < (String.utf8EncodeChar c).length
    · -- only the first byte of a character can be 0xed
      have hlead : i = 0 := by
        by_contra hne
        obtain ⟨k, rfl⟩ : ∃ k, i = k + 1 := ⟨i - 1, by omega⟩
        rw [List.getElem?_append_left hin, hc, List.getElem?_cons_succ] at hx
        have hbyte := htail x (List.mem_of_getElem? hx)
        unfold Tail at hbyte
        omega
      subst hlead
      have hvalid := c.valid
      rw [← encodePoint_toNat] at hx hy hin
      unfold encodePoint at hx hy hin
      have hn : c.toNat < 0x110000 ∧ ¬ Surrogate c.toNat := by
        unfold Surrogate
        unfold UInt32.isValidChar Nat.isValidChar at hvalid
        have hval : c.toNat = c.val.toNat := rfl
        omega
      unfold Surrogate at hn
      by_cases h1 : c.toNat ≤ 0x7f
      · rw [if_pos h1] at hx
        have hx := Option.some.inj hx
        rw [← hx, UInt8.toNat_ofNat'] at hed
        omega
      rw [if_neg h1] at hx hy
      by_cases h2 : c.toNat ≤ 0x7ff
      · rw [if_pos h2] at hx
        have hx := Option.some.inj hx
        rw [← hx, UInt8.toNat_ofNat'] at hed
        omega
      rw [if_neg h2] at hx hy
      by_cases h3 : c.toNat ≤ 0xffff
      · rw [if_pos h3] at hx hy
        have hx := Option.some.inj hx
        have hy := Option.some.inj hy
        rw [← hx, UInt8.toNat_ofNat'] at hed
        rw [← hy, UInt8.toNat_ofNat']
        omega
      · rw [if_neg h3] at hx
        have hx := Option.some.inj hx
        rw [← hx, UInt8.toNat_ofNat'] at hed
        omega
    · rw [List.getElem?_append_right (by omega)] at hx hy
      rw [show i + 1 - (String.utf8EncodeChar c).length = i - (String.utf8EncodeChar c).length + 1 by omega] at hy
      exact ih hx hy

/-- **A surrogate** cannot be encoded. -/
theorem not_valid_of_surrogate {ps : List Nat} {p : Nat} (hp : p ∈ ps) (hs : Surrogate p) :
    ¬ Valid (ps.flatMap encodePoint) := by
  intro h
  obtain ⟨l, r, rfl⟩ := List.append_of_mem hp
  rw [List.flatMap_append, List.flatMap_cons] at h
  unfold Surrogate at hs
  have hbytes : encodePoint p =
      [UInt8.ofNat (p / 4096 % 0x10 + 0xe0), UInt8.ofNat (p / 64 % 0x40 + 0x80), UInt8.ofNat (p % 0x40 + 0x80)] := by
    unfold encodePoint
    rw [if_neg (by omega), if_neg (by omega), if_pos (by omega)]
  rw [hbytes] at h
  have hle := h.after_ed (i := (l.flatMap encodePoint).length) (x := UInt8.ofNat (p / 4096 % 0x10 + 0xe0))
    (y := UInt8.ofNat (p / 64 % 0x40 + 0x80))
    (by rw [List.getElem?_append_right (Nat.le_refl _), Nat.sub_self]; rfl)
    (by rw [UInt8.toNat_ofNat']; omega)
    (by rw [List.getElem?_append_right (by omega), Nat.add_sub_cancel_left]; rfl)
  rw [UInt8.toNat_ofNat'] at hle
  omega

/-- Only the code point 0 has a byte 0. -/
theorem zero_notMem_encodePoint {p : Nat} (h0 : p ≠ 0) (hlt : p < 0x110000) : (0 : UInt8) ∉ encodePoint p := by
  have hbyte : ∀ n, 0 < n → n < 256 → (0 : UInt8) ≠ UInt8.ofNat n := by
    intro n hn hlt heq
    have h := congrArg UInt8.toNat heq
    rw [UInt8.toNat_ofNat', Nat.mod_eq_of_lt hlt] at h
    have hz : (0 : UInt8).toNat = 0 := rfl
    omega
  unfold encodePoint
  split_ifs
  all_goals simp only [List.mem_cons, List.not_mem_nil, or_false, not_or]
  · exact hbyte _ (by omega) (by omega)
  · exact ⟨hbyte _ (by omega) (by omega), hbyte _ (by omega) (by omega)⟩
  · exact ⟨hbyte _ (by omega) (by omega), hbyte _ (by omega) (by omega), hbyte _ (by omega) (by omega)⟩
  · exact ⟨hbyte _ (by omega) (by omega), hbyte _ (by omega) (by omega), hbyte _ (by omega) (by omega),
      hbyte _ (by omega) (by omega)⟩

end DS4.Lib
