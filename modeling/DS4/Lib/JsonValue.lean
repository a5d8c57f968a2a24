import DS4.Lib.JsonTree
import Mathlib.Algebra.Field.Rat

namespace DS4.Lib.Json

/-!
# What JSON numbers and strings stand for

* `NumberIs` — a number and its value; `NumberIs.digits` — a number of digits only.
* `Number.split` — the digits that a number begins with, and what may follow them.
* `StringIs` — a string and its bytes; `decoded_plain` — a string without code units.
-/

variable {x v : List UInt8} {q : ℚ}

/-! ### Numbers -/

def isDigit (c : UInt8) : Bool := decide (0x30 ≤ c ∧ c ≤ 0x39)

/-- The value of decimal digits. -/
def natOf (ds : List UInt8) : Nat := ds.foldl (fun v c => 10 * v + (c.toNat - 0x30)) 0

/-- The value of a point and digits. -/
def fractionValue (frac : List UInt8) : ℚ := natOf frac.tail / 10 ^ frac.tail.length

/-- The value of an exponent. -/
def exponentValue : List UInt8 → ℤ
  | []      => 0
  | _ :: ds =>
    if ds.head? = some 0x2d then -natOf ds.tail
    else if ds.head? = some 0x2b then natOf ds.tail
    else natOf ds

/-- A number and its value. -/
inductive NumberIs : List UInt8 → ℚ → Prop
  | mk {minus int frac exp : List UInt8} (hminus : minus = [] ∨ minus = [0x2d]) (hint : Integer int)
      (hfrac : Fraction frac) (hexp : Exponent exp) :
      NumberIs (minus ++ (int ++ (frac ++ exp)))
        ((if minus = [] then 1 else -1) * (natOf int + fractionValue frac) * 10 ^ exponentValue exp)

theorem NumberIs.number (h : NumberIs x q) : Number x := by
  obtain ⟨hminus, hint, hfrac, hexp⟩ := h
  exact .mk hminus hint hfrac hexp

theorem Number.exists_value (h : Number x) : ∃ q, NumberIs x q := by
  obtain ⟨hminus, hint, hfrac, hexp⟩ := h
  exact ⟨_, .mk hminus hint hfrac hexp⟩

theorem isDigit_iff (c : UInt8) : isDigit c = true ↔ 0x30 ≤ c ∧ c ≤ 0x39 := decide_eq_true_iff

theorem Integer.digits {int : List UInt8} (h : Integer int) : int ≠ [] ∧ ∀ c ∈ int, isDigit c = true := by
  rcases h with rfl | ⟨⟨hne, hdigits⟩, -⟩
  · exact ⟨List.cons_ne_nil _ _, List.forall_mem_singleton.mpr (by decide)⟩
  · exact ⟨hne, fun c hc => (isDigit_iff c).mpr (hdigits c hc)⟩

/-- What follows the first digits of a number. -/
theorem rest_head {frac exp : List UInt8} (hfrac : Fraction frac) (hexp : Exponent exp) :
    ∀ c ∈ (frac ++ exp).head?, c = 0x2e ∨ c = 0x65 ∨ c = 0x45 := by
  intro c hc
  rcases hfrac with rfl | ⟨ds, -, rfl⟩
  · rcases hexp with rfl | ⟨e, sign, ds, he, -, -, rfl⟩
    · exact absurd hc (by simp)
    · obtain rfl := Option.some.inj hc
      exact Or.inr he
  · exact Or.inl (Option.some.inj hc).symm

/-- **A number** that begins with a digit: its first digits, and a point, an exponent or nothing. -/
theorem Number.split (h : Number x) (hhead : ∀ c ∈ x.head?, c ≠ 0x2d) :
    ∃ int rest, x = int ++ rest ∧ int ≠ [] ∧ (∀ c ∈ int, isDigit c = true) ∧
      ∀ c ∈ rest.head?, c = 0x2e ∨ c = 0x65 ∨ c = 0x45 := by
  obtain ⟨hminus, hint, hfrac, hexp⟩ := h
  rcases hminus with rfl | rfl
  · obtain ⟨hne, hdigits⟩ := hint.digits
    exact ⟨_, _, List.nil_append _, hne, hdigits, rest_head hfrac hexp⟩
  · exact absurd rfl (hhead 0x2d rfl)

/-- **A number of digits** is their value. -/
theorem NumberIs.digits (h : NumberIs x q) (hdigits : ∀ c ∈ x, isDigit c = true) : q = natOf x := by
  obtain ⟨hminus, hint, hfrac, hexp⟩ := h
  rcases hminus with rfl | rfl
  case inr => exact absurd (hdigits 0x2d (by simp)) (by decide)
  rcases hfrac with rfl | ⟨ds, -, rfl⟩
  case inr => exact absurd (hdigits 0x2e (by simp)) (by decide)
  rcases hexp with rfl | ⟨e, sign, ds, he, -, -, rfl⟩
  case inr =>
    have he' : e = 0x65 ∨ e = 0x45 := he
    rcases he' with rfl | rfl
    · exact absurd (hdigits 0x65 (by simp)) (by decide)
    · exact absurd (hdigits 0x45 (by simp)) (by decide)
  simp [fractionValue, exponentValue, natOf]

/-! ### Strings -/

/-- A string and its bytes; a surrogate that is alone is encoded as it is. -/
def StringIs (v s : List UInt8) : Prop := ∃ ps, v = literal ps ∧ s = (decoded ps).flatMap encodePoint

/-- A character or a short escape. -/
def Piece.Plain (p : Piece) : Prop := ∀ a b c d, p ≠ .unit a b c d

theorem Piece.Plain.not_high {p : Piece} (h : p.Plain) : ¬ High p.value := by
  cases p with
  | raw c hc =>
    rintro ⟨hlo, hhi⟩
    have hvalid := c.valid
    unfold UInt32.isValidChar Nat.isValidChar at hvalid
    have hlo' : 0xd800 ≤ c.val.toNat := hlo
    have hhi' : c.val.toNat ≤ 0xdbff := hhi
    omega
  | short e he =>
    have hall : ∀ e ∈ shortEscapes, ¬ High e.2 := by decide
    exact hall e he
  | unit a b c d => exact absurd rfl (h a b c d)

theorem joinSurrogates_eq_self {s : List Nat} (h : ∀ u ∈ s, ¬ High u) : joinSurrogates s = s := by
  induction s with
  | nil => rfl
  | cons u s ih =>
    rw [joinSurrogates_lone fun hu => absurd hu (h u List.mem_cons_self),
      ih fun v hv => h v (List.mem_cons_of_mem u hv)]

/-- **A literal without code units** stands for its pieces one by one. -/
theorem decoded_plain {ps : List Piece} (h : ∀ p ∈ ps, p.Plain) : decoded ps = ps.map Piece.value := by
  apply joinSurrogates_eq_self
  intro u hu
  obtain ⟨p, hp, rfl⟩ := List.mem_map.mp hu
  exact (h p hp).not_high

end DS4.Lib.Json
