import DS4.Lib.JsonString

namespace DS4.Lib.Json

/-!
# JSON values, as RFC 8259 states them

* `Space`, `Number` — white space and numbers.
* `opening`, `closing` — the brackets of arrays and of objects.
* `Text` — the texts of values and of the items of arrays and objects; `Value n` — a value that is nested at most `n`
  deep.
-/

/-- White space. -/
def Space (w : List UInt8) : Prop := ∀ c ∈ w, c = 0x20 ∨ c = 0x09 ∨ c = 0x0a ∨ c = 0x0d

/-- At least one digit. -/
def Digits (ds : List UInt8) : Prop := ds ≠ [] ∧ ∀ c ∈ ds, 0x30 ≤ c ∧ c ≤ 0x39

/-- An integer without leading zeros. -/
def Integer (x : List UInt8) : Prop := x = [0x30] ∨ Digits x ∧ x.head? ≠ some 0x30

/-- A point and digits, or nothing. -/
def Fraction (x : List UInt8) : Prop := x = [] ∨ ∃ ds, Digits ds ∧ x = 0x2e :: ds

/-- An exponent, or nothing. -/
def Exponent (x : List UInt8) : Prop :=
  x = [] ∨ ∃ e sign ds, (e = 0x65 ∨ e = 0x45) ∧ (sign = [] ∨ sign = [0x2b] ∨ sign = [0x2d]) ∧ Digits ds ∧
    x = e :: (sign ++ ds)

/-- A number. -/
inductive Number : List UInt8 → Prop
  | mk {minus int frac exp : List UInt8} (hminus : minus = [] ∨ minus = [0x2d]) (hint : Integer int)
      (hfrac : Fraction frac) (hexp : Exponent exp) : Number (minus ++ (int ++ (frac ++ exp)))

/-- `true`, `false` and `null`. -/
def words : List (List UInt8) :=
  [[0x74, 0x72, 0x75, 0x65], [0x66, 0x61, 0x6c, 0x73, 0x65], [0x6e, 0x75, 0x6c, 0x6c]]

/-- The bracket that opens an object, or an array. -/
def opening (obj : Bool) : UInt8 := if obj then 0x7b else 0x5b

/-- The bracket that closes it. -/
def closing (obj : Bool) : UInt8 := if obj then 0x7d else 0x5d

/-- What stands before the value of an item: nothing in an array, the key in an object. -/
inductive Key : Bool → List UInt8 → Prop
  | element {w : List UInt8} (hw : Space w) : Key false w
  | member {w w' w'' : List UInt8} (ps : List Piece) (hw : Space w) (hw' : Space w') (hw'' : Space w'') :
      Key true (w ++ (literal ps ++ (w' ++ 0x3a :: w'')))

/-- A part of a JSON text: a value, or the items of an array or of an object. -/
inductive Part
  | value
  | items (obj : Bool)

/-- The texts of the parts; values are nested at most `n` deep. -/
inductive Text : Part → Nat → List UInt8 → Prop
  | word {n : Nat} {w : List UInt8} (hw : w ∈ words) : Text .value n w
  | number {n : Nat} {x : List UInt8} (hx : Number x) : Text .value n x
  | string {n : Nat} (ps : List Piece) : Text .value n (literal ps)
  | empty {n : Nat} {w : List UInt8} (obj : Bool) (hw : Space w) :
      Text .value (n + 1) (opening obj :: (w ++ [closing obj]))
  | items {n : Nat} {es : List UInt8} {obj : Bool} (hes : Text (.items obj) n es) :
      Text .value (n + 1) (opening obj :: (es ++ [closing obj]))
  | last {obj : Bool} {n : Nat} {k v w : List UInt8} (hk : Key obj k) (hv : Text .value n v) (hw : Space w) :
      Text (.items obj) n (k ++ (v ++ w))
  | more {obj : Bool} {n : Nat} {k v w es : List UInt8} (hk : Key obj k) (hv : Text .value n v) (hw : Space w)
      (hes : Text (.items obj) n es) : Text (.items obj) n (k ++ (v ++ (w ++ 0x2c :: es)))

/-- A value that is nested at most `n` deep. -/
def Value (n : Nat) (v : List UInt8) : Prop := Text .value n v

end DS4.Lib.Json
