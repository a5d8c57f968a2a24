import DS4.Lib.Utf8

namespace DS4.Lib.Json

/-!
# JSON strings, as RFC 8259 states them

A string literal is a row of characters and escapes between quotation marks.

* `Piece`, with `Piece.bytes` — a character or an escape; `literal` — a string literal.
* `Piece.value` — the code point or the UTF-16 code unit that a piece stands for.
* `joinSurrogates` — code units joined to code points; `decoded` — what a literal stands for, where a
  surrogate that has no partner stands for itself.
* `valid_literal` — a literal is valid UTF-8.
-/

/-- A hexadecimal digit in either case. -/
structure Hex where
  byte : UInt8
  value : Nat
  ok : (0x30 ≤ byte.toNat ∧ byte.toNat ≤ 0x39 ∧ byte.toNat = 0x30 + value) ∨
    (0x41 ≤ byte.toNat ∧ byte.toNat ≤ 0x46 ∧ byte.toNat + 10 = 0x41 + value) ∨
    (0x61 ≤ byte.toNat ∧ byte.toNat ≤ 0x66 ∧ byte.toNat + 10 = 0x61 + value)

theorem Hex.value_lt (h : Hex) : h.value < 16 := by
  have hok := h.ok
  omega

/-- The letter of an escape and what it stands for: `"`, `\\`, `/`, `b`, `f`, `n`, `r`, `t`. -/
def shortEscapes : List (UInt8 × Nat) :=
  [(0x22, 0x22), (0x5c, 0x5c), (0x2f, 0x2f), (0x62, 0x08), (0x66, 0x0c), (0x6e, 0x0a), (0x72, 0x0d), (0x74, 0x09)]

/-- A character of a string literal, or an escape. -/
inductive Piece
  | raw (c : Char) (h : 0x20 ≤ c.toNat ∧ c.toNat ≠ 0x22 ∧ c.toNat ≠ 0x5c)
  | short (e : UInt8 × Nat) (h : e ∈ shortEscapes)
  | unit (a b c d : Hex)

/-- A piece as it stands in the literal. -/
def Piece.bytes : Piece → List UInt8
  | .raw c _      => String.utf8EncodeChar c
  | .short e _    => [0x5c, e.1]
  | .unit a b c d => [0x5c, 0x75, a.byte, b.byte, c.byte, d.byte]

/-- The code point of a piece, or its code unit. -/
def Piece.value : Piece → Nat
  | .raw c _      => c.toNat
  | .short e _    => e.2
  | .unit a b c d => ((a.value * 16 + b.value) * 16 + c.value) * 16 + d.value

/-- The string literal of some pieces. -/
def literal (ps : List Piece) : List UInt8 := 0x22 :: (ps.flatMap Piece.bytes ++ [0x22])

/-- The first unit of a pair, and the second. -/
def High (u : Nat) : Prop := 0xd800 ≤ u ∧ u ≤ 0xdbff

def Low (u : Nat) : Prop := 0xdc00 ≤ u ∧ u ≤ 0xdfff

instance (u : Nat) : Decidable (High u) := inferInstanceAs (Decidable (_ ∧ _))

instance (u : Nat) : Decidable (Low u) := inferInstanceAs (Decidable (_ ∧ _))

/-- The code point of a pair. -/
def pair (u v : Nat) : Nat := 0x10000 + (u - 0xd800) * 0x400 + (v - 0xdc00)

/-- Code points from code units. -/
def joinSurrogates : List Nat → List Nat
  | []          => []
  | [u]         => [u]
  | u :: v :: s => if High u ∧ Low v then pair u v :: joinSurrogates s else u :: joinSurrogates (v :: s)

/-- What a literal stands for. -/
def decoded (ps : List Piece) : List Nat := joinSurrogates (ps.map Piece.value)

/-! ### Joining -/

variable {u v : Nat} {s : List Nat}

theorem joinSurrogates_pair (hu : High u) (hv : Low v) :
    joinSurrogates (u :: v :: s) = pair u v :: joinSurrogates s := by
  rw [joinSurrogates, if_pos ⟨hu, hv⟩]

/-- A unit that has no partner. -/
theorem joinSurrogates_lone (h : High u → ∀ v, s.head? = some v → ¬ Low v) :
    joinSurrogates (u :: s) = u :: joinSurrogates s := by
  cases s with
  | nil => rfl
  | cons v s => rw [joinSurrogates, if_neg fun hp => h hp.1 v rfl hp.2]

/-- What is joined is a code point. -/
theorem joinSurrogates_lt (h : ∀ u ∈ s, u < 0x110000) : ∀ p ∈ joinSurrogates s, p < 0x110000 := by
  induction s using joinSurrogates.induct with
  | case1 => exact nofun
  | case2 u => exact h
  | case3 u v s hp ih =>
    rw [joinSurrogates, if_pos hp]
    refine List.forall_mem_cons.mpr ⟨?_, ih fun w hw => h w (List.mem_cons_of_mem u (List.mem_cons_of_mem v hw))⟩
    obtain ⟨⟨_, _⟩, _, _⟩ := hp
    unfold pair
    omega
  | case4 u v s hp ih =>
    rw [joinSurrogates, if_neg hp]
    exact List.forall_mem_cons.mpr ⟨h u List.mem_cons_self, ih fun w hw => h w (List.mem_cons_of_mem u hw)⟩

theorem Piece.value_lt (p : Piece) : p.value < 0x110000 := by
  cases p with
  | raw c h =>
    have hvalid := c.valid
    unfold UInt32.isValidChar Nat.isValidChar at hvalid
    show c.val.toNat < 0x110000
    omega
  | short e h =>
    have hall : ∀ e ∈ shortEscapes, e.2 < 0x110000 := by decide
    exact hall e h
  | unit a b c d =>
    have ha := a.value_lt
    have hb := b.value_lt
    have hc := c.value_lt
    have hd := d.value_lt
    show ((a.value * 16 + b.value) * 16 + c.value) * 16 + d.value < 0x110000
    omega

theorem decoded_lt (ps : List Piece) : ∀ p ∈ decoded ps, p < 0x110000 := by
  refine joinSurrogates_lt fun u hu => ?_
  obtain ⟨p, -, rfl⟩ := List.mem_map.mp hu
  exact p.value_lt

/-! ### Literals -/

theorem Piece.valid_bytes (p : Piece) : Valid p.bytes := by
  cases p with
  | raw c h => exact ⟨[c], by rw [encode_cons]; exact (List.append_nil _).symm⟩
  | short e h =>
    have hall : ∀ e ∈ shortEscapes, ∀ b ∈ [0x5c, e.1], Nat.ble (UInt8.toNat b) 0x7f = true := by decide +kernel
    exact valid_ascii fun b hb => Nat.le_of_ble_eq_true (hall e h b hb)
  | unit a b c d =>
    refine valid_ascii fun x hx => ?_
    have ha := a.ok
    have hb := b.ok
    have hc := c.ok
    have hd := d.ok
    simp only [Piece.bytes, List.mem_cons, List.not_mem_nil, or_false] at hx
    have h5c : (0x5c : UInt8).toNat = 0x5c := rfl
    have h75 : (0x75 : UInt8).toNat = 0x75 := rfl
    obtain rfl | rfl | rfl | rfl | rfl | rfl := hx <;> omega

/-- The bytes of a character of a literal are neither quotation marks nor backslashes. -/
theorem raw_bytes {ch : Char} (h : 0x20 ≤ ch.toNat ∧ ch.toNat ≠ 0x22 ∧ ch.toNat ≠ 0x5c) :
    ∀ b ∈ String.utf8EncodeChar ch, b ≠ 0x22 ∧ b ≠ 0x5c := by
  intro b hb
  have hne : b.toNat ≠ 0x22 ∧ b.toNat ≠ 0x5c := by
    by_cases hascii : ch.toNat ≤ 0x7f
    · rw [← encodePoint_toNat, encodePoint, if_pos hascii] at hb
      obtain rfl := List.mem_singleton.mp hb
      rw [UInt8.toNat_ofNat', Nat.mod_eq_of_lt (by omega)]
      exact h.2
    · -- the bytes of a longer character are 0x80 and above
      rw [← encodePoint_toNat, encodePoint, if_neg hascii] at hb
      split_ifs at hb
      all_goals simp only [List.mem_cons, List.not_mem_nil, or_false] at hb
      · obtain rfl | rfl := hb <;> rw [UInt8.toNat_ofNat'] <;> omega
      · obtain rfl | rfl | rfl := hb <;> rw [UInt8.toNat_ofNat'] <;> omega
      · obtain rfl | rfl | rfl | rfl := hb <;> rw [UInt8.toNat_ofNat'] <;> omega
  constructor
  · rintro rfl
    exact hne.1 rfl
  · rintro rfl
    exact hne.2 rfl

/-- A hexadecimal digit is none of the bytes that have a meaning in a literal. -/
theorem Hex.byte_ne (h : Hex) : h.byte ≠ 0x22 ∧ h.byte ≠ 0x5c ∧ h.byte ≠ 0 := by
  have hok := h.ok
  have hne : h.byte.toNat ≠ 0x22 ∧ h.byte.toNat ≠ 0x5c ∧ h.byte.toNat ≠ 0 := by omega
  refine ⟨?_, ?_, ?_⟩
  · exact fun heq => hne.1 (congrArg UInt8.toNat heq)
  · exact fun heq => hne.2.1 (congrArg UInt8.toNat heq)
  · exact fun heq => hne.2.2 (congrArg UInt8.toNat heq)

/-- A literal has no zero byte. -/
theorem Piece.zero_notMem (p : Piece) : (0 : UInt8) ∉ p.bytes := by
  cases p with
  | raw c h =>
    have hlt : c.toNat < 0x110000 := (Piece.raw c h).value_lt
    have hzero := zero_notMem_encodePoint (by omega) hlt
    rwa [encodePoint_toNat] at hzero
  | short e h =>
    have hall : ∀ e ∈ shortEscapes, (0 : UInt8) ∉ [0x5c, e.1] := by decide
    exact hall e h
  | unit a b c d =>
    have ha := a.byte_ne.2.2
    have hb := b.byte_ne.2.2
    have hc := c.byte_ne.2.2
    have hd := d.byte_ne.2.2
    simp only [Piece.bytes, List.mem_cons, List.not_mem_nil, or_false, not_or]
    exact ⟨by decide, by decide, ha.symm, hb.symm, hc.symm, hd.symm⟩

theorem zero_notMem_literal (ps : List Piece) : (0 : UInt8) ∉ literal ps := by
  unfold literal
  rw [List.mem_cons, List.mem_append, List.mem_flatMap]
  rintro (h | ⟨p, -, h⟩ | h)
  · exact absurd h (by decide)
  · exact p.zero_notMem h
  · exact absurd (List.mem_singleton.mp h) (by decide)

/-- **A literal** is valid UTF-8. -/
theorem valid_literal (ps : List Piece) : Valid (literal ps) := by
  have hquote : Valid [0x22] := valid_ascii (List.forall_mem_singleton.mpr (Nat.le_of_ble_eq_true rfl))
  have hpieces : Valid (ps.flatMap Piece.bytes) := by
    induction ps with
    | nil => exact ⟨[], rfl⟩
    | cons p ps ih =>
      rw [List.flatMap_cons]
      exact Valid.append p.valid_bytes ih
  exact Valid.append hquote (Valid.append hpieces hquote)

end DS4.Lib.Json
