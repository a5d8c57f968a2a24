import DS4.FlashMoe.ManifestKeys
import DS4.Lib.JsonValue
import Mathlib.Data.List.TakeWhile

namespace DS4.FlashMoe

/-!
# Flash-MoE — the values of a JSON object

What the scanner makes of a JSON value, and what a parser makes of it.

* `FieldKind.read` — the four readers of values; `manifestFields` — the fields of an entry.
* `FieldValue.Is` — what a JSON value stands for.
* `FieldKind.Plain` — how a value must be spelled to be read rightly.
* `Gives` — what a parser gives for a key; `read_iff` — **a value that is spelled plainly** is read as that.
-/

open DS4.Server (Bytes lit cstr strstr isspace)
open DS4.Lib.Json (Member Element IsObject IsArray IsValue Picks Lacks place literal Stops Number NumberIs
  StringIs Piece natOf Space)

variable {v z rest : Bytes} {key : String}

/-! ### Fields -/

/-- The readers of values. -/
inductive FieldKind where
  | u64
  | bool
  | string
  | u64Array3
  deriving DecidableEq

inductive FieldValue where
  | u64 (x : UInt64)
  | bool (b : Bool)
  | string (s : Bytes)
  | u64Array3 (xs : List UInt64)
  deriving DecidableEq

def FieldValue.kind : FieldValue → FieldKind
  | .u64 _       => .u64
  | .bool _      => .bool
  | .string _    => .string
  | .u64Array3 _ => .u64Array3

/-- `flash_moe_json_u64`, `flash_moe_json_bool`, `flash_moe_json_string`,
    `flash_moe_json_u64_array3` -/
def FieldKind.read (obj : Cursor) (key : String) : FieldKind → Option FieldValue
  | .u64       => (jsonU64 obj key).map .u64
  | .bool      => (jsonBool obj key).map .bool
  | .string    => (jsonString obj key).map .string
  | .u64Array3 => (jsonU64Array3 obj key).map .u64Array3

/-- What `flash_moe_parse_entry` reads of an entry. -/
def manifestFields : List (String × FieldKind) :=
  [("layer", .u64), ("tensor_family", .string), ("quant_type", .string), ("shape", .u64Array3),
    ("repacked_file", .string), ("bytes_per_expert", .u64), ("repacked_offset", .u64),
    ("expert_stride", .u64), ("expert_major", .bool)]

/-- What a JSON value stands for: a natural number of 64 bits, a truth value, a string, an array of
    three such numbers. -/
def FieldValue.Is (v : Bytes) : FieldValue → Prop
  | .u64 x        => NumberIs v x.toNat
  | .bool b       => v = if b then lit "true" else lit "false"
  | .string s     => StringIs v s
  | .u64Array3 xs =>
    ∃ es, IsArray v es ∧ es.length = 3 ∧ List.Forall₂ (fun e x => NumberIs e.value x.toNat) es xs

/-- How a value must be spelled: a number without a fraction or an exponent that changes it, a
    string without `\\u`, the natural numbers of an array as digits. -/
def FieldKind.Plain (v : Bytes) : FieldKind → Prop
  | .u64       => ∀ q, NumberIs v q →
    if v.takeWhile isDigit = [] then ∀ k : Nat, q ≠ k else q = natOf (v.takeWhile isDigit)
  | .bool      => True
  | .string    => ∀ ps, v = literal ps → ∀ p ∈ ps, p.Plain
  | .u64Array3 => ∀ es, IsArray v es → ∀ e ∈ es, ∀ x : UInt64, NumberIs e.value x.toNat →
    ∀ c ∈ e.value, isDigit c = true

/-! ### Numbers -/

theorem takeWhile_stop {p : UInt8 → Bool} (hz : ∀ c ∈ z.head?, p c = false) :
    (v ++ z).takeWhile p = v.takeWhile p := by
  rw [List.takeWhile_append]
  split
  · rename_i hall
    have hv : v.takeWhile p = v := ( List.takeWhile_prefix p).eq_of_length hall
    rw [hv]
    cases z with
    | nil => simp
    | cons c z => rw [List.takeWhile_cons, if_neg (by rw [hz c rfl]; simp), List.append_nil]
  · rfl

/-- **A number** in front of something that is no digit. -/
theorem u64_value (hne : v ≠ []) (hz : ∀ c ∈ z.head?, isDigit c = false) (hznil : z ≠ []) (rest : Bytes) :
    (Cursor.of (v ++ z) rest).u64 =
      if v.takeWhile isDigit ≠ [] ∧ natOf (v.takeWhile isDigit) < UInt64.size then
        some (UInt64.ofNat (natOf (v.takeWhile isDigit)),
          .of ((v ++ z).drop (v.takeWhile isDigit).length) rest)
      else none := by
  obtain ⟨c, t, rfl⟩ := List.exists_cons_of_ne_nil hne
  have hstop : ∀ e ∈ (z ++ rest).head?, isDigit e = false := by
    obtain ⟨e, u, rfl⟩ := List.exists_cons_of_ne_nil hznil
    exact hz
  have hdigits : (Cursor.of (c :: t ++ z) rest).text.takeWhile isDigit = (c :: t).takeWhile isDigit := by
    show (c :: t ++ z ++ rest).takeWhile isDigit = _
    rw [List.append_assoc]
    exact takeWhile_stop hstop
  have hlen : ((c :: t).takeWhile isDigit).length ≤ (c :: t ++ z).length := by
    have := ( List.takeWhile_prefix (l := c :: t) isDigit).length_le
    rw [List.length_append]
    omega
  have hnil : (c :: t).takeWhile isDigit ≠ [] ↔ isDigit c = true := by
    rw [List.takeWhile_cons]
    cases isDigit c <;> simp
  have hdecimal : decimal ((c :: t).takeWhile isDigit) = natOf ((c :: t).takeWhile isDigit) := rfl
  have hhead : (c :: t ++ z).head? = some c := rfl
  unfold Cursor.u64
  rw [Cursor.of_head, hhead]
  dsimp only
  simp only [hdigits, hdecimal, Cursor.of_left]
  by_cases hd : isDigit c = true
  · by_cases hlt : natOf ((c :: t).takeWhile isDigit) < UInt64.size
    · rw [if_neg (by rintro (h | h | h); exacts [h hd, by omega, by omega]), if_pos ⟨hnil.mpr hd, hlt⟩,
        Cursor.of_drop hlen]
    · rw [if_pos (Or.inr (Or.inl (Nat.not_lt.mp hlt))), if_neg (fun h => hlt h.2)]
  · rw [if_pos (Or.inl hd), if_neg (fun h => hd (hnil.mp h.1))]

/-- Something that does not continue a number. -/
def Behind (z : Bytes) : Prop := ∃ c t, z = c :: t ∧ isDigit c = false

theorem behind_of_stops {w tail : Bytes} (hw : Space w) (ht : Stops tail) : Behind (w ++ tail) := by
  cases w with
  | nil =>
    obtain ⟨c, t, rfl, rfl | rfl | rfl⟩ := ht
    · exact ⟨_, t, rfl, by decide⟩
    · exact ⟨_, t, rfl, by decide⟩
    · exact ⟨_, t, rfl, by decide⟩
  | cons c w =>
    refine ⟨c, w ++ tail, rfl, ?_⟩
    rcases hw c List.mem_cons_self with rfl | rfl | rfl | rfl <;> decide

/-- White space before a value. -/
theorem skipSpace_value {w : Bytes} (hw : Space w) (hv : IsValue v) (z rest : Bytes) :
    (Cursor.of (w ++ (v ++ z)) rest).skipSpace = .of (v ++ z) rest := by
  obtain ⟨c, t, rfl, hc⟩ := hv.head
  rw [Cursor.of_skipSpace, List.cons_append, dropWhile_spaces (isspace_of_space hw) (isspace_of_lt c hc)]

/-- The first digits of a value. -/
theorem takeWhile_ne_nil (hv : IsValue v) (hne : v.takeWhile isDigit ≠ []) : Number v := by
  obtain ⟨c, t, rfl, -⟩ := hv.head
  rw [List.takeWhile_cons] at hne
  split at hne
  · rename_i hc
    have hdigit : 0x30 ≤ c ∧ c ≤ 0x39 := of_decide_eq_true hc
    exact hv.number rfl ⟨UInt8.le_trans (by decide) hdigit.1, hdigit.2⟩
  · exact absurd rfl hne

/-- **A number** is read as its value. -/
theorem u64_iff (hv : IsValue v) (hz : Behind z) (hplain : FieldKind.Plain v .u64) (rest : Bytes) (x : UInt64) :
    (Cursor.of (v ++ z) rest).u64.map Prod.fst = some x ↔ NumberIs v x.toNat := by
  have hne : v ≠ [] := by
    obtain ⟨c, t, rfl, -⟩ := hv.head
    exact List.cons_ne_nil c t
  obtain ⟨c, t, rfl, hc⟩ := hz
  have hhead : ∀ e ∈ (c :: t).head?, isDigit e = false := by
    intro e he
    obtain rfl := Option.some.inj he
    exact hc
  rw [u64_value hne hhead (List.cons_ne_nil c t)]
  constructor
  · intro h
    split at h
    · rename_i hdigits
      obtain ⟨hdne, hlt⟩ := hdigits
      obtain ⟨q, hq⟩ := (takeWhile_ne_nil hv hdne).exists_value
      have hval := hplain q hq
      rw [if_neg hdne] at hval
      obtain rfl := Option.some.inj h
      rw [hval] at hq
      rwa [UInt64.toNat_ofNat_of_lt' hlt]
    · exact absurd h (by simp)
  · intro h
    have hval := hplain _ h
    split at hval
    · exact absurd rfl (hval x.toNat)
    · rename_i hdne
      have hnat : x.toNat = natOf (v.takeWhile isDigit) := by exact_mod_cast hval
      rw [if_pos ⟨hdne, hnat ▸ x.toNat_lt⟩, ← hnat]
      simp

/-! ### Truth values -/

/-- **A truth value** is read as it is. -/
theorem bool_iff (hv : IsValue v) (z : Bytes) (b : Bool) :
    (if (lit "true").isPrefixOf (v ++ z) then some true
      else if (lit "false").isPrefixOf (v ++ z) then some false else none) = some b ↔
      v = if b then lit "true" else lit "false" := by
  -- a text that begins with a word begins with its letter
  have hno : ∀ word ∈ [lit "true", lit "false"], v ∉ Lib.Json.words → ¬ word.isPrefixOf (v ++ z) = true := by
    intro word hword hnot hpre
    have hletter : ∀ word ∈ [lit "true", lit "false"], ∃ c t, word = c :: t ∧ 0x61 ≤ c ∧ c ≤ 0x7a := by
      intro word hword
      rcases List.mem_cons.mp hword with rfl | hword
      · exact ⟨_, _, rfl, by decide⟩
      · rw [List.mem_singleton.mp hword]
        exact ⟨_, _, rfl, by decide⟩
    obtain ⟨c, t, rfl, hc⟩ := hletter word hword
    obtain ⟨d, u, rfl, -⟩ := hv.head
    obtain ⟨y, hy⟩ := List.isPrefixOf_iff_prefix.mp hpre
    obtain ⟨rfl, -⟩ := List.cons.inj hy
    exact hnot (hv.word rfl hc)
  by_cases hw : v ∈ Lib.Json.words
  · have hsplit : ∀ w ∈ Lib.Json.words, w = lit "true" ∨ w = lit "false" ∨ w = lit "null" := by decide
    rcases hsplit v hw with rfl | rfl | rfl
    · have hpre : (lit "true").isPrefixOf (lit "true" ++ z) = true :=
        List.isPrefixOf_iff_prefix.mpr (List.prefix_append _ _)
      rw [if_pos hpre]
      cases b <;> decide
    · have hpre : (lit "false").isPrefixOf (lit "false" ++ z) = true :=
        List.isPrefixOf_iff_prefix.mpr (List.prefix_append _ _)
      have htrue : (lit "true").isPrefixOf (lit "false" ++ z) = false := rfl
      rw [htrue, if_neg (by simp), if_pos hpre]
      cases b <;> decide
    · have htrue : (lit "true").isPrefixOf (lit "null" ++ z) = false := rfl
      have hfalse : (lit "false").isPrefixOf (lit "null" ++ z) = false := rfl
      rw [htrue, hfalse]
      cases b <;> decide
  · rw [if_neg (hno _ (by simp) hw), if_neg (hno _ (by simp) hw)]
    constructor
    · exact fun h => absurd h (by simp)
    · rintro rfl
      cases b <;> exact absurd (by decide) hw

/-! ### Strings -/

/-- What the loop of the reader makes of characters and short escapes. -/
theorem stringLoop_pieces {ps : List Piece} (hplain : ∀ p ∈ ps, p.Plain) (t : Bytes) :
    stringLoop (ps.flatMap Piece.bytes ++ '"'.toUInt8 :: t) =
      some (ps.flatMap fun p => Lib.encodePoint p.value) := by
  induction ps with
  | nil =>
    cases t with
    | nil => rfl
    | cons e t => exact if_pos rfl
  | cons p ps ih =>
    have hps := ih fun x hx => hplain x (List.mem_cons_of_mem p hx)
    rw [List.flatMap_cons, List.flatMap_cons, List.append_assoc]
    cases p with
    | raw c h =>
      have hbytes : (Piece.raw c h).bytes = Lib.encodePoint (Piece.raw c h).value :=
        (Lib.encodePoint_toNat c).symm
      have hraw : ∀ b ∈ (Piece.raw c h).bytes, b ≠ '"'.toUInt8 ∧ b ≠ '\\'.toUInt8 := Lib.Json.raw_bytes h
      rw [stringLoop_raw hraw (by simp), hps, ← hbytes]
      rfl
    | short e he =>
      have hall : ∀ e ∈ Lib.Json.shortEscapes, Lib.encodePoint e.2 = [unescape e.1] := by decide
      have hvalue : Lib.encodePoint (Piece.short e he).value = [unescape e.1] := hall e he
      have hslash : (Piece.short e he).bytes = ['\\'.toUInt8, e.1] := rfl
      rw [hvalue, hslash, List.cons_append, List.singleton_append, stringLoop, if_neg (by decide), if_pos rfl, hps]
      rfl
    | unit a b c d => exact absurd rfl (hplain _ List.mem_cons_self a b c d)

/-- **A string** is read as what it stands for. -/
theorem string_iff (hv : IsValue v) (hplain : FieldKind.Plain v .string) (z x : Bytes) :
    (match v ++ z with
      | []     => none
      | c :: s => if c = '"'.toUInt8 then (stringLoop s).map cstr else none) = some x ↔ StringIs v x := by
  have hread : ∀ ps, v = literal ps → (match v ++ z with
      | []     => none
      | c :: s => if c = '"'.toUInt8 then (stringLoop s).map cstr else none) =
        some ((Lib.Json.decoded ps).flatMap Lib.encodePoint) := by
    rintro ps rfl
    have hpieces := hplain ps rfl
    have hcat : literal ps ++ z = '"'.toUInt8 :: (ps.flatMap Piece.bytes ++ '"'.toUInt8 :: z) := by
      show '"'.toUInt8 :: (ps.flatMap Piece.bytes ++ ['"'.toUInt8] ++ z) = _
      rw [List.append_assoc]
      rfl
    rw [hcat]
    dsimp only
    rw [if_pos rfl, stringLoop_pieces hpieces, Option.map_some, Lib.Json.decoded_plain hpieces, List.flatMap_map]
    -- there is no zero byte in it
    congr 1
    have hzero : ∀ c ∈ ps.flatMap fun p => Lib.encodePoint p.value, c ≠ 0 := by
      rintro c hc rfl
      obtain ⟨p, hp, hmem⟩ := List.mem_flatMap.mp hc
      refine Lib.zero_notMem_encodePoint ?_ p.value_lt hmem
      cases p with
      | raw ch h =>
        have hvalue : (Piece.raw ch h).value = ch.toNat := rfl
        omega
      | short e he =>
        have hall : ∀ e ∈ Lib.Json.shortEscapes, e.2 ≠ 0 := by decide
        exact hall e he
      | unit a b c d => exact absurd rfl (hpieces _ hp a b c d)
    exact List.takeWhile_eq_self_iff.mpr fun c hc => decide_eq_true (hzero c hc)
  constructor
  · intro h
    have hhead : v.head? = some '"'.toUInt8 := by
      obtain ⟨c, t, rfl, -⟩ := hv.head
      rw [List.cons_append] at h
      dsimp only at h
      split at h
      · rename_i hc
        rw [hc]
        rfl
      · exact absurd h (by simp)
    obtain ⟨ps, hps⟩ := hv.string hhead
    rw [hread ps hps] at h
    exact ⟨ps, hps, (Option.some.inj h).symm⟩
  · rintro ⟨ps, hps, rfl⟩
    exact hread ps hps

/-! ### Arrays -/

/-- The value is written in digits, and fits in 64 bits. -/
def Small (v : Bytes) : Prop := (∀ c ∈ v, isDigit c = true) ∧ natOf v < UInt64.size

/-- **An element** in front of a comma or of the closing bracket. -/
theorem u64s_element {e : Element} (he : e.WellFormed) {c sep : UInt8} (hc : c = 0x2c ∨ c = 0x5d)
    (hsep : sep = 0x2c ∨ sep = 0x5d) (seps t rest : Bytes) :
    (Small e.value ∧ sep = c → u64s (sep :: seps) (.of (e.front ++ (e.value ++ (e.after ++ c :: t))) rest) =
      (u64s seps (.of t rest)).map (UInt64.ofNat (natOf e.value) :: ·)) ∧
    (¬ (Small e.value ∧ sep = c) →
      u64s (sep :: seps) (.of (e.front ++ (e.value ++ (e.after ++ c :: t))) rest) = none) := by
  have hspace : isspace c = false := by rcases hc with rfl | rfl <;> decide
  have hstops : Stops (c :: t) := ⟨c, t, rfl, hc.elim Or.inl fun h => Or.inr (Or.inr h)⟩
  obtain ⟨d, y, hz, hd⟩ := behind_of_stops he.after hstops
  have hhead : ∀ x ∈ (e.after ++ c :: t).head?, isDigit x = false := by
    intro x hx
    rw [hz] at hx
    obtain rfl := Option.some.inj hx
    exact hd
  have hne : e.value ≠ [] := by
    obtain ⟨b, u, hv, -⟩ := he.value.head
    rw [hv]
    exact List.cons_ne_nil b u
  have hread := u64_value hne hhead (by simp) rest
  -- what is behind a number of digits only
  have hbehind : (Cursor.of (e.after ++ c :: t) rest).skipSpace = .of (c :: t) rest := by
    rw [Cursor.of_skipSpace, dropWhile_spaces (isspace_of_space he.after) hspace]
  rw [u64s, skipSpace_value he.front he.value, hread]
  constructor
  · rintro ⟨⟨hdigits, hlt⟩, rfl⟩
    have hall : e.value.takeWhile isDigit = e.value := List.takeWhile_eq_self_iff.mpr hdigits
    rw [hall, if_pos ⟨hne, hlt⟩]
    dsimp only
    rw [List.drop_left, hbehind, Cursor.of_head, if_pos (show (sep :: t).head? = some sep from rfl),
      Cursor.of_drop (by simp)]
    rfl
  · intro hnot
    by_cases hsmall : e.value.takeWhile isDigit ≠ [] ∧ natOf (e.value.takeWhile isDigit) < UInt64.size
    · rw [if_pos hsmall]
      dsimp only
      have hnum := takeWhile_ne_nil he.value hsmall.1
      obtain ⟨int, tail, hv, hint, hdigits, htail⟩ := hnum.split (by
        intro x hx hxm
        apply hsmall.1
        obtain ⟨b, u, hb⟩ := List.exists_cons_of_ne_nil hne
        rw [hb] at hx ⊢
        obtain rfl := Option.some.inj hx
        rw [hxm, List.takeWhile_cons, if_neg (by decide)])
      have hnodigit : ∀ x ∈ tail.head?, isDigit x = false := by
        intro x hx
        rcases htail x hx with rfl | rfl | rfl <;> decide
      have hall : e.value.takeWhile isDigit = int := by
        rw [hv, takeWhile_stop hnodigit]
        exact List.takeWhile_eq_self_iff.mpr hdigits
      rw [hall] at hsmall ⊢
      have hdrop : (e.value ++ (e.after ++ c :: t)).drop int.length = tail ++ (e.after ++ c :: t) := by
        rw [hv, List.append_assoc, List.drop_left]
      rw [hdrop]
      cases tail with
      | nil =>
        have hvalue : e.value = int := by rw [hv, List.append_nil]
        have hsepc : sep ≠ c := by
          intro heq
          rw [hvalue] at hnot
          exact hnot ⟨⟨hdigits, hsmall.2⟩, heq⟩
        rw [List.nil_append, hbehind, Cursor.of_head, if_neg]
        exact fun h => hsepc (Option.some.inj h).symm
      -- a point or an exponent
      | cons x tail =>
        have hx := htail x rfl
        have hxspace : isspace x = false := by rcases hx with rfl | rfl | rfl <;> decide
        have hskip : (Cursor.of (x :: tail ++ (e.after ++ c :: t)) rest).skipSpace =
            .of (x :: tail ++ (e.after ++ c :: t)) rest := by
          rw [Cursor.of_skipSpace, List.cons_append, List.dropWhile_cons, if_neg (by rw [hxspace]; simp)]
        rw [hskip, Cursor.of_head, if_neg]
        intro h
        have heq : x = sep := Option.some.inj h
        rw [← heq] at hsep
        rcases hx with rfl | rfl | rfl <;> exact absurd hsep (by decide)
    · rw [if_neg hsmall]

/-- **The elements** of an array, with the bytes that are expected behind them. -/
theorem u64s_row {es : List Element} (hes : ∀ e ∈ es, e.WellFormed) (hne : es ≠ []) (k : Nat) (z rest : Bytes)
    (xs : List UInt64) :
    u64s (List.replicate k 0x2c ++ [0x5d]) (.of (Lib.Json.row (es.map Element.text) ++ 0x5d :: z) rest) = some xs ↔
      es.length = k + 1 ∧
        List.Forall₂ (fun e x => Small e.value ∧ x = UInt64.ofNat (natOf e.value)) es xs := by
  induction k generalizing es xs with
  | zero =>
    obtain ⟨e, es, rfl⟩ := List.exists_cons_of_ne_nil hne
    have he := hes e List.mem_cons_self
    cases es with
    | nil =>
      obtain ⟨hyes, hno⟩ := u64s_element he (Or.inr rfl) (Or.inr rfl) [] z rest
      rw [Lib.Json.row_last]
      show u64s [0x5d] _ = some xs ↔ _
      by_cases hsmall : Small e.value
      · rw [hyes ⟨hsmall, rfl⟩]
        simp [u64s, hsmall, List.forall₂_cons_left_iff, eq_comm]
      · rw [hno fun h => hsmall h.1]
        simp [hsmall, List.forall₂_cons_left_iff]
    | cons e' es =>
      obtain ⟨-, hno⟩ := u64s_element he (Or.inl rfl) (Or.inr rfl) []
        (Lib.Json.row ((e' :: es).map Element.text) ++ 0x5d :: z) rest
      rw [Lib.Json.row_more]
      show u64s [0x5d] _ = some xs ↔ _
      rw [hno fun h => absurd h.2 (by decide)]
      simp
  | succ k ih =>
    obtain ⟨e, es, rfl⟩ := List.exists_cons_of_ne_nil hne
    have he := hes e List.mem_cons_self
    cases es with
    | nil =>
      obtain ⟨-, hno⟩ := u64s_element he (Or.inr rfl) (Or.inl rfl) (List.replicate k 0x2c ++ [0x5d]) z rest
      rw [Lib.Json.row_last]
      show u64s (0x2c :: (List.replicate k 0x2c ++ [0x5d])) _ = some xs ↔ _
      rw [hno fun h => absurd h.2 (by decide)]
      simp
    | cons e' es =>
      obtain ⟨hyes, hno⟩ := u64s_element he (Or.inl rfl) (Or.inl rfl) (List.replicate k 0x2c ++ [0x5d])
        (Lib.Json.row ((e' :: es).map Element.text) ++ 0x5d :: z) rest
      have hrest := ih (fun x hx => hes x (List.mem_cons_of_mem e hx)) (List.cons_ne_nil e' es)
      rw [Lib.Json.row_more]
      show u64s (0x2c :: (List.replicate k 0x2c ++ [0x5d])) _ = some xs ↔ _
      by_cases hsmall : Small e.value
      · rw [hyes ⟨hsmall, rfl⟩, Option.map_eq_some_iff, List.forall₂_cons_left_iff]
        constructor
        · rintro ⟨ys, hys, rfl⟩
          obtain ⟨hlen, hall⟩ := (hrest ys).mp hys
          exact ⟨congrArg (· + 1) hlen, _, ys, ⟨hsmall, rfl⟩, hall, rfl⟩
        · rintro ⟨hlen, x, ys, ⟨-, rfl⟩, hall, rfl⟩
          exact ⟨ys, (hrest ys).mpr ⟨Nat.succ.inj hlen, hall⟩, rfl⟩
      · rw [hno fun h => hsmall h.1]
        simp [hsmall, List.forall₂_cons_left_iff]

/-- The numbers of an array. -/
theorem u64s_array {es : List Element} (h : IsArray v es) (z rest : Bytes) (xs : List UInt64) :
    u64s [','.toUInt8, ','.toUInt8, ']'.toUInt8] ((Cursor.of (v ++ z) rest).drop 1) = some xs ↔
      es.length = 3 ∧
        List.Forall₂ (fun e x => Small e.value ∧ x = UInt64.ofNat (natOf e.value)) es xs := by
  obtain ⟨hes, body, rfl, ⟨hnil, hspace⟩ | ⟨hne, rfl⟩⟩ := h
  -- an empty array
  · have hdrop : (Cursor.of (Lib.Json.opening false :: (body ++ [Lib.Json.closing false]) ++ z) rest).drop 1 =
        .of (body ++ ']'.toUInt8 :: z) rest := by
      rw [Cursor.of_drop (by simp)]
      simp [Lib.Json.closing]
      rfl
    have hread : (Cursor.of (']'.toUInt8 :: z) rest).u64 = none := rfl
    rw [hdrop, u64s, Cursor.of_skipSpace, dropWhile_spaces (isspace_of_space hspace) (by decide), hread]
    obtain rfl := List.map_eq_nil_iff.mp hnil
    simp
  · have hdrop : (Cursor.of (Lib.Json.opening false :: (Lib.Json.row (es.map Element.text) ++
        [Lib.Json.closing false]) ++ z) rest).drop 1 = .of (Lib.Json.row (es.map Element.text) ++ 0x5d :: z) rest := by
      rw [Cursor.of_drop (by simp)]
      simp [Lib.Json.closing]
    rw [hdrop]
    exact u64s_row hes (fun h => hne (List.map_eq_nil_iff.mpr h)) 2 z rest xs

/-- A number of digits only. -/
theorem numberIs_of_small (hv : IsValue v) (h : Small v) : NumberIs v (UInt64.ofNat (natOf v)).toNat := by
  have hne : v.takeWhile isDigit ≠ [] := by
    rw [List.takeWhile_eq_self_iff.mpr h.1]
    obtain ⟨c, t, rfl, -⟩ := hv.head
    exact List.cons_ne_nil c t
  obtain ⟨q, hq⟩ := (takeWhile_ne_nil hv hne).exists_value
  rw [hq.digits h.1] at hq
  rwa [UInt64.toNat_ofNat_of_lt' h.2]

/-- **An array** of three numbers is read as they are. -/
theorem array_iff (hv : IsValue v) (hplain : FieldKind.Plain v .u64Array3) (z rest : Bytes) (xs : List UInt64) :
    (if (Cursor.of (v ++ z) rest).head? = some '['.toUInt8 then
        u64s [','.toUInt8, ','.toUInt8, ']'.toUInt8] ((Cursor.of (v ++ z) rest).drop 1)
      else none) = some xs ↔ FieldValue.Is v (.u64Array3 xs) := by
  have hheads : ∀ {c}, (Cursor.of (v ++ z) rest).head? = some c ↔ v.head? = some c := by
    obtain ⟨d, t, rfl, -⟩ := hv.head
    intro c
    rw [Cursor.of_head]
    rfl
  constructor
  · intro h
    split at h
    · rename_i hhead
      obtain ⟨es, hes⟩ := Lib.Json.exists_elements hv (hheads.mp hhead)
      obtain ⟨hlen, hall⟩ := (u64s_array hes z rest xs).mp h
      refine ⟨es, hes, hlen, ?_⟩
      rw [List.forall₂_iff_get] at hall ⊢
      obtain ⟨hlength, hall⟩ := hall
      refine ⟨hlength, fun i hi hi' => ?_⟩
      obtain ⟨hsmall, hx⟩ := hall i hi hi'
      rw [hx]
      exact numberIs_of_small (hes.wellFormed _ (List.get_mem es _)).value hsmall
    · exact absurd h (by simp)
  · rintro ⟨es, hes, hlen, hall⟩
    have hhead : v.head? = some '['.toUInt8 := by
      obtain ⟨-, body, rfl, -⟩ := hes
      rfl
    rw [if_pos (hheads.mpr hhead), u64s_array hes]
    refine ⟨hlen, ?_⟩
    rw [List.forall₂_iff_get] at hall ⊢
    obtain ⟨hlength, hall⟩ := hall
    refine ⟨hlength, fun i hi hi' => ?_⟩
    have hnum := hall i hi hi'
    have hdigits := hplain es hes _ (List.get_mem es _) _ hnum
    have hnat : (xs.get ⟨i, hi'⟩).toNat = natOf (es.get ⟨i, hi⟩).value := by
      exact_mod_cast hnum.digits hdigits
    refine ⟨⟨hdigits, hnat ▸ UInt64.toNat_lt _⟩, ?_⟩
    rw [← hnat]
    simp

/-! ### Fields of an object -/

/-- What a parser gives for a key of an object. -/
def Gives (ms : List Member) (key : String) (x : FieldValue) : Prop :=
  ∃ before m, Picks ms (codes key) before m ∧ x.Is m.value

/-- The key first stands at its member, and the value there is spelled plainly. -/
structure Readable (f : String × FieldKind) (o : Bytes) (ms : List Member) : Prop where
  keyFirst : KeyFirst f.1 o ms
  plain : ∀ before m, Picks ms (codes f.1) before m → f.2.Plain m.value

/-- A reader of one kind of values. -/
theorem map_read_iff {α : Type} {mk : α → FieldValue} {kind : FieldKind} {r : Option α}
    (hkind : ∀ x : FieldValue, x.kind = kind ↔ ∃ y, mk y = x) (hread : ∀ y, r = some y ↔ (mk y).Is v)
    (x : FieldValue) : r.map mk = some x ↔ x.kind = kind ∧ x.Is v := by
  rw [Option.map_eq_some_iff, hkind]
  constructor
  · rintro ⟨y, hy, rfl⟩
    exact ⟨⟨y, rfl⟩, (hread y).mp hy⟩
  · rintro ⟨⟨y, rfl⟩, hx⟩
    exact ⟨y, (hread y).mpr hx, rfl⟩

/-- **A field** whose key is found first and whose value is spelled plainly is read as what a
    parser gives for it. -/
theorem read_iff {o : Bytes} {ms : List Member} {kind : FieldKind} (h : Readable (key, kind) o ms)
    (ho : IsObject o ms) (rest : Bytes) (x : FieldValue) :
    kind.read (.of o rest) key = some x ↔ x.kind = kind ∧ Gives ms key x := by
  obtain ⟨hkey, hplain⟩ := h
  rcases Lib.Json.picks_or_lacks ms (codes key) with ⟨before, m, hp⟩ | hlacks
  · have hspell := hplain before m hp
    obtain ⟨hm, tail, htail, hfind⟩ := hkey.findKey_picks ho hp rest
    have hbehind := behind_of_stops hm.after htail
    have hskip := skipSpace_value hm.back hm.value (m.after ++ tail) rest
    have hpick : Gives ms key x ↔ x.Is m.value := by
      constructor
      · rintro ⟨before', m', hp', hx⟩
        obtain ⟨-, rfl⟩ := hp.unique hp'
        exact hx
      · exact fun hx => ⟨before, m, hp, hx⟩
    have hobject : ∀ u, (Cursor.of u rest).text.take (Cursor.of u rest).left = u := fun u => List.take_left
    rw [hpick]
    cases kind with
    | u64 =>
      unfold FieldKind.read jsonU64
      rw [hfind]
      dsimp only
      rw [hskip]
      exact map_read_iff (by rintro (_ | _ | _ | _) <;> simp [FieldValue.kind])
        (u64_iff hm.value hbehind hspell rest) x
    | bool =>
      unfold FieldKind.read jsonBool
      rw [hfind]
      dsimp only
      rw [hskip, hobject]
      exact map_read_iff (by rintro (_ | _ | _ | _) <;> simp [FieldValue.kind])
        (bool_iff hm.value (m.after ++ tail)) x
    | string =>
      unfold FieldKind.read jsonString
      rw [hfind]
      dsimp only
      rw [hskip, hobject]
      exact map_read_iff (by rintro (_ | _ | _ | _) <;> simp [FieldValue.kind])
        (string_iff hm.value hspell (m.after ++ tail)) x
    | u64Array3 =>
      unfold FieldKind.read jsonU64Array3
      rw [hfind]
      dsimp only
      rw [hskip]
      exact map_read_iff (by rintro (_ | _ | _ | _) <;> simp [FieldValue.kind])
        (array_iff hm.value hspell (m.after ++ tail) rest) x
  · have hfind := hkey.findKey_lacks hlacks rest
    have hnone : kind.read (.of o rest) key = none := by
      cases kind with
      | u64 =>
        unfold FieldKind.read jsonU64
        rw [hfind]
        rfl
      | bool =>
        unfold FieldKind.read jsonBool
        rw [hfind]
        rfl
      | string =>
        unfold FieldKind.read jsonString
        rw [hfind]
        rfl
      | u64Array3 =>
        unfold FieldKind.read jsonU64Array3
        rw [hfind]
        rfl
    rw [hnone]
    constructor
    · exact fun h => absurd h (by simp)
    · rintro ⟨-, before, m, hp, -⟩
      exact absurd hlacks hp.not_lacks

/-- **An entry** is what its fields are. -/
theorem parseEntry_congr {c c' : Cursor} (h : ∀ f ∈ manifestFields, f.2.read c f.1 = f.2.read c' f.1)
    (v : Variant) (dir : Bytes) (ctx : ParseCtx) :
    flashMoeParseEntry v dir c ctx = flashMoeParseEntry v dir c' ctx := by
  have hu64 : ∀ key, (key, FieldKind.u64) ∈ manifestFields → jsonU64 c key = jsonU64 c' key := fun key hkey =>
    Option.map_injective (fun _ _ => FieldValue.u64.inj) (h _ hkey)
  have hbool : ∀ key, (key, FieldKind.bool) ∈ manifestFields → jsonBool c key = jsonBool c' key := fun key hkey =>
    Option.map_injective (fun _ _ => FieldValue.bool.inj) (h _ hkey)
  have hstring : ∀ key, (key, FieldKind.string) ∈ manifestFields → jsonString c key = jsonString c' key :=
    fun key hkey => Option.map_injective (fun _ _ => FieldValue.string.inj) (h _ hkey)
  have harray : ∀ key, (key, FieldKind.u64Array3) ∈ manifestFields → jsonU64Array3 c key = jsonU64Array3 c' key :=
    fun key hkey => Option.map_injective (fun _ _ => FieldValue.u64Array3.inj) (h _ hkey)
  unfold flashMoeParseEntry
  rw [hu64 "layer" (by decide), hstring "tensor_family" (by decide), hstring "quant_type" (by decide),
    harray "shape" (by decide), hstring "repacked_file" (by decide), hu64 "bytes_per_expert" (by decide),
    hu64 "repacked_offset" (by decide), hu64 "expert_stride" (by decide), hbool "expert_major" (by decide)]

end DS4.FlashMoe
