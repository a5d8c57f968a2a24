import DS4.Lib.Bytes
import DS4.Lib.JsonString
import DS4.Server.Json

namespace DS4.Server

/-!
# Server — JSON strings, written and read

What `json_escape` writes `json_string` reads back, and what it reads of any literal.

* `jsonStringBody_raw`, `jsonStringBody_escapeByte` — one piece of a literal, read.
* `json_string_round_trip` — a text that was escaped, whole or in fragments.
* `jsonString_literal` — every literal is read, and rightly where no surrogate is alone.
* `json_string_decodes_iff` — the literals that are read as what they stand for.
-/

open DS4.Lib

/-! ### Reading one piece -/

variable {fuel : Nat} {s t rest : Bytes} {c : UInt8}

theorem jsonStringBody_quote (fuel : Nat) (s : Bytes) : jsonStringBody (fuel + 1) ('"'.toUInt8 :: s) = some ([], s) := by
  rw [jsonStringBody.eq_def]
  dsimp only
  rw [if_pos rfl]

theorem jsonStringBody_char (hquote : c ≠ '"'.toUInt8) (hslash : c ≠ '\\'.toUInt8) (fuel : Nat) (s : Bytes) :
    jsonStringBody (fuel + 1) (c :: s) = (jsonStringBody fuel s).map fun r => (c :: r.1, r.2) := by
  rw [jsonStringBody.eq_def]
  dsimp only
  rw [if_neg hquote, if_pos hslash]

/-- Bytes that are neither a quotation mark nor a backslash. -/
theorem jsonStringBody_raw {bs : Bytes} (h : ∀ b ∈ bs, b ≠ '"'.toUInt8 ∧ b ≠ '\\'.toUInt8) (fuel : Nat) (t : Bytes) :
    jsonStringBody (fuel + bs.length) (bs ++ t) = (jsonStringBody fuel t).map fun r => (bs ++ r.1, r.2) := by
  induction bs with
  | nil =>
    show jsonStringBody fuel t = (jsonStringBody fuel t).map fun r => (r.1, r.2)
    cases jsonStringBody fuel t <;> rfl
  | cons b bs ih =>
    obtain ⟨hquote, hslash⟩ := h b List.mem_cons_self
    have hrest := ih fun x hx => h x (List.mem_cons_of_mem b hx)
    show jsonStringBody (fuel + bs.length + 1) (b :: (bs ++ t)) = _
    rw [jsonStringBody_char hquote hslash, hrest]
    cases jsonStringBody fuel t <;> rfl

/-- An escape of one letter. -/
theorem jsonStringBody_short {e b : UInt8} (hu : e ≠ 'u'.toUInt8) (he : jsonEscapeChar e = some b) (fuel : Nat)
    (t : Bytes) :
    jsonStringBody (fuel + 1) ('\\'.toUInt8 :: e :: t) = (jsonStringBody fuel t).map fun r => (b :: r.1, r.2) := by
  rw [jsonStringBody.eq_def]
  dsimp only
  rw [if_neg (by decide), if_neg fun h => h rfl, if_neg hu, he]

/-- An escape of a code unit. -/
theorem jsonStringBody_unicode {bs : Bytes} (h : jsonUnicodeEscape ('\\'.toUInt8 :: 'u'.toUInt8 :: s) = some (bs, t))
    (fuel : Nat) :
    jsonStringBody (fuel + 1) ('\\'.toUInt8 :: 'u'.toUInt8 :: s) =
      (jsonStringBody fuel t).map fun r => (bs ++ r.1, r.2) := by
  rw [jsonStringBody.eq_def]
  dsimp only
  rw [if_neg (by decide), if_neg fun h => h rfl, if_pos rfl, h]

/-! ### What was escaped -/

/-- The escape of a control character. -/
theorem jsonUnicodeEscape_control (hc : c < 0x20) (t : Bytes) :
    jsonUnicodeEscape (lit "\\u00" ++ [hexDigit (c / 16), hexDigit (c % 16)] ++ t) = some ([c], t) := by
  have hdigits : ∀ c : UInt8, c < 0x20 → jsonHex (hexDigit (c / 16)) = some (c.toNat / 16) ∧
      jsonHex (hexDigit (c % 16)) = some (c.toNat % 16) := forall_uint8 (by decide +kernel)
  obtain ⟨hhigh, hlow⟩ := hdigits c hc
  have hlt : c.toNat < 0x20 := hc
  have hu16 : jsonU16 (lit "\\u00" ++ [hexDigit (c / 16), hexDigit (c % 16)] ++ t) = some (c.toNat, t) := by
    show jsonU16 ('\\'.toUInt8 :: 'u'.toUInt8 :: 0x30 :: 0x30 :: hexDigit (c / 16) :: hexDigit (c % 16) :: t) = _
    have hzero : jsonHex 0x30 = some 0 := by decide
    rw [jsonU16, if_pos ⟨rfl, rfl⟩, hzero, hhigh, hlow]
    dsimp only
    rw [show ((0 * 16 + 0) * 16 + c.toNat / 16) * 16 + c.toNat % 16 = c.toNat by omega]
  unfold jsonUnicodeEscape
  rw [hu16]
  dsimp only
  rw [if_neg (by omega), utf8Put, if_pos (by omega), UInt8.ofNat_toNat]

/-- **One byte** of a text. -/
theorem jsonStringBody_escapeByte (hc : c ≠ 0) (fuel : Nat) (t : Bytes) :
    jsonStringBody (fuel + 1) (jsonEscapeByte c ++ t) = (jsonStringBody fuel t).map fun r => (c :: r.1, r.2) := by
  unfold jsonEscapeByte
  by_cases h1 : c = '"'.toUInt8 ∨ c = '\\'.toUInt8
  · rw [if_pos h1]
    have hnot : c ≠ 'u'.toUInt8 := by
      rcases h1 with rfl | rfl <;> decide
    refine jsonStringBody_short hnot ?_ fuel t
    rcases h1 with rfl | rfl <;> decide
  rw [if_neg h1]
  by_cases h2 : c = '\n'.toUInt8
  · subst h2
    exact jsonStringBody_short (by decide) (by decide) fuel t
  rw [if_neg h2]
  by_cases h3 : c = '\r'.toUInt8
  · subst h3
    exact jsonStringBody_short (by decide) (by decide) fuel t
  rw [if_neg h3]
  by_cases h4 : c = '\t'.toUInt8
  · subst h4
    exact jsonStringBody_short (by decide) (by decide) fuel t
  rw [if_neg h4]
  by_cases h5 : c < 0x20
  · rw [if_pos h5]
    exact jsonStringBody_unicode (jsonUnicodeEscape_control h5 t) fuel
  · rw [if_neg h5]
    have hraw : ∀ b ∈ [c], b ≠ '"'.toUInt8 ∧ b ≠ '\\'.toUInt8 := by
      intro b hb
      obtain rfl := List.mem_singleton.mp hb
      exact not_or.mp h1
    exact jsonStringBody_raw hraw fuel t

theorem jsonEscapeByte_length_pos (c : UInt8) : 0 < (jsonEscapeByte c).length := by
  unfold jsonEscapeByte
  split_ifs <;> exact Nat.succ_pos _

/-- A text that was escaped. -/
theorem jsonStringBody_escapeFragment (h : 0 ∉ s) (hfuel : (jsonEscapeFragment s).length < fuel) (rest : Bytes) :
    jsonStringBody fuel (jsonEscapeFragment s ++ '"'.toUInt8 :: rest) = some (s, rest) := by
  induction s generalizing fuel with
  | nil =>
    obtain ⟨fuel, rfl⟩ : ∃ n, fuel = n + 1 := ⟨fuel - 1, by omega⟩
    exact jsonStringBody_quote fuel rest
  | cons c s ih =>
    have hcons : jsonEscapeFragment (c :: s) = jsonEscapeByte c ++ jsonEscapeFragment s := List.flatMap_cons
    have hpos := jsonEscapeByte_length_pos c
    rw [hcons, List.length_append] at hfuel
    obtain ⟨fuel, rfl⟩ : ∃ n, fuel = n + 1 := ⟨fuel - 1, by omega⟩
    have hrest := ih (fun h0 => h (List.mem_cons_of_mem c h0)) (show _ < fuel by omega)
    rw [hcons, List.append_assoc, jsonStringBody_escapeByte (fun h0 => h (h0 ▸ List.mem_cons_self)), hrest]
    rfl

theorem cstr_eq_self (h : 0 ∉ s) : cstr s = s := by
  induction s with
  | nil => rfl
  | cons c s ih =>
    have hc : c ≠ 0 := fun h0 => h (h0 ▸ List.mem_cons_self)
    have hs := ih fun h0 => h (List.mem_cons_of_mem c h0)
    unfold cstr at hs ⊢
    rw [List.takeWhile_cons, if_pos (decide_eq_true hc), hs]

/-- A text that is escaped in pieces. -/
theorem jsonEscapeFragment_flatten (pieces : List Bytes) :
    jsonEscapeFragment pieces.flatten = (pieces.map jsonEscapeFragment).flatten := by
  induction pieces with
  | nil => rfl
  | cons p pieces ih =>
    rw [List.flatten_cons, List.map_cons, List.flatten_cons, ← ih]
    exact List.flatMap_append

/-- **Round trip.**  A text that was escaped, whole or in pieces, is read back, and what follows it is left. -/
theorem json_string_round_trip (s rest : Bytes) (h : 0 ∉ s) :
    jsonString (jsonEscape s ++ rest) = some (s, rest) ∧
      ∀ pieces : List Bytes, pieces.flatten = s →
        jsonEscape s = lit "\"" ++ (pieces.map jsonEscapeFragment).flatten ++ lit "\"" := by
  have hescape : jsonEscape s = '"'.toUInt8 :: (jsonEscapeFragment s ++ ['"'.toUInt8]) := by
    unfold jsonEscape
    rw [cstr_eq_self h]
    rfl
  refine ⟨?_, ?_⟩
  · have hws : jsonWs (jsonEscape s ++ rest) = '"'.toUInt8 :: (jsonEscapeFragment s ++ '"'.toUInt8 :: rest) := by
      rw [hescape, List.cons_append, List.append_assoc]
      rfl
    unfold jsonString
    rw [hws]
    dsimp only
    rw [if_pos rfl, jsonStringBody_escapeFragment h (by rw [List.length_append]; omega), Option.map_some,
      cstr_eq_self h]
  · rintro pieces rfl
    rw [hescape, jsonEscapeFragment_flatten]
    rfl

theorem json_string_round_trip_sample :
    jsonString (jsonEscape (lit "a\"\n\x7f") ++ lit ",") = some (lit "a\"\n\x7f", lit ",") ∧
      ∀ pieces : List Bytes, pieces.flatten = lit "a\"\n\x7f" →
        jsonEscape (lit "a\"\n\x7f") = lit "\"" ++ (pieces.map jsonEscapeFragment).flatten ++ lit "\"" :=
  json_string_round_trip (lit "a\"\n\x7f") (lit ",") (by decide)

/-! ### Literals -/

theorem utf8Put_eq {p : Nat} (hp : p < 0x110000) : utf8Put p = encodePoint p := by
  unfold utf8Put encodePoint
  split_ifs with h1 h2 h3
  · rfl
  · rw [Nat.mod_eq_of_lt (show p / 64 < 0x20 by omega), Nat.add_comm (p / 64), Nat.add_comm (p % 0x40)]
  · rw [Nat.mod_eq_of_lt (show p / 4096 < 0x10 by omega), Nat.add_comm (p / 4096), Nat.add_comm (p / 64 % 0x40),
      Nat.add_comm (p % 0x40)]
  · rw [Nat.mod_eq_of_lt (show p / 262144 < 0x08 by omega), Nat.add_comm (p / 262144), Nat.add_comm (p / 4096 % 0x40),
      Nat.add_comm (p / 64 % 0x40), Nat.add_comm (p % 0x40)]

theorem jsonHex_hex (h : Json.Hex) : jsonHex h.byte = some h.value := by
  have hok := h.ok
  have hle : ∀ (a b : UInt8), a ≤ b ↔ a.toNat ≤ b.toNat := fun a b => UInt8.le_iff_toNat_le
  unfold jsonHex
  simp only [hle]
  have h0 : ('0'.toUInt8).toNat = 0x30 := rfl
  have h9 : ('9'.toUInt8).toNat = 0x39 := rfl
  have ha : ('a'.toUInt8).toNat = 0x61 := rfl
  have hf : ('f'.toUInt8).toNat = 0x66 := rfl
  have hA : ('A'.toUInt8).toNat = 0x41 := rfl
  have hF : ('F'.toUInt8).toNat = 0x46 := rfl
  split_ifs
  · exact congrArg some (by omega)
  · exact congrArg some (by omega)
  · exact congrArg some (by omega)
  · omega

theorem jsonU16_unit (a b c d : Json.Hex) (t : Bytes) :
    jsonU16 ((Json.Piece.unit a b c d).bytes ++ t) = some ((Json.Piece.unit a b c d).value, t) := by
  show jsonU16 ('\\'.toUInt8 :: 'u'.toUInt8 :: a.byte :: b.byte :: c.byte :: d.byte :: t) = _
  rw [jsonU16, if_pos ⟨rfl, rfl⟩, jsonHex_hex, jsonHex_hex, jsonHex_hex, jsonHex_hex]
  rfl

theorem jsonU16_eq_none {b : UInt8} (hb : b ≠ '\\'.toUInt8) (s : Bytes) : jsonU16 (b :: s) = none := by
  unfold jsonU16
  split
  · rename_i heq
    rw [if_neg]
    rintro ⟨rfl, -⟩
    exact hb (List.cons.inj heq).1
  · rfl

theorem jsonU16_short_eq_none {e : UInt8} (he : e ≠ 'u'.toUInt8) (s : Bytes) :
    jsonU16 ('\\'.toUInt8 :: e :: s) = none := by
  unfold jsonU16
  split
  · rename_i heq
    rw [if_neg]
    rintro ⟨-, rfl⟩
    exact he (List.cons.inj (List.cons.inj heq).2).1
  · rfl

/-- No surrogate is alone. -/
def NoLone (us : List Nat) : Prop := ∀ p ∈ Json.joinSurrogates us, ¬ Surrogate p

/-- What the loop makes of the pieces of a literal: it reads them all, and rightly where no surrogate is alone. -/
def ReadsPieces (ps : List Json.Piece) : Prop :=
  ∀ fuel rest, (ps.flatMap Json.Piece.bytes).length < fuel → ∃ text,
    jsonStringBody fuel (ps.flatMap Json.Piece.bytes ++ '"'.toUInt8 :: rest) = some (text, rest) ∧
      (NoLone (ps.map Json.Piece.value) → text = (Json.decoded ps).flatMap encodePoint)

/-- The pieces `qs` are read in front of `ps`. -/
theorem readsPieces_append {qs ps : List Json.Piece} {bs : Bytes} {k : Nat}
    (hk : k ≤ (qs.flatMap Json.Piece.bytes).length)
    (hread : ∀ fuel rest, jsonStringBody (fuel + k)
      (qs.flatMap Json.Piece.bytes ++ (ps.flatMap Json.Piece.bytes ++ '"'.toUInt8 :: rest)) =
        (jsonStringBody fuel (ps.flatMap Json.Piece.bytes ++ '"'.toUInt8 :: rest)).map fun r => (bs ++ r.1, r.2))
    (hbs : NoLone ((qs ++ ps).map Json.Piece.value) →
      ∃ us : List Nat, bs = us.flatMap encodePoint ∧ Json.decoded (qs ++ ps) = us ++ Json.decoded ps)
    (h : ReadsPieces ps) : ReadsPieces (qs ++ ps) := by
  intro fuel rest hfuel
  rw [List.flatMap_append, List.length_append] at hfuel
  obtain ⟨text, htext, hright⟩ := h (fuel - k) rest (by omega)
  refine ⟨bs ++ text, ?_, fun hlone => ?_⟩
  · have hread := hread (fuel - k) rest
    rw [Nat.sub_add_cancel (by omega), htext] at hread
    rw [List.flatMap_append, List.append_assoc]
    exact hread
  · obtain ⟨us, hus, hdec⟩ := hbs hlone
    have hps : NoLone (ps.map Json.Piece.value) := by
      intro p hp
      refine hlone p ?_
      show p ∈ Json.decoded (qs ++ ps)
      rw [hdec]
      exact List.mem_append_right us hp
    rw [hdec, List.flatMap_append, hright hps, hus]

/-- One piece that is no first half of a pair. -/
theorem readsPieces_cons {p : Json.Piece} {ps : List Json.Piece} {k : Nat} (hk : k ≤ p.bytes.length)
    (hread : ∀ fuel t, jsonStringBody (fuel + k) (p.bytes ++ t) =
      (jsonStringBody fuel t).map fun r => (encodePoint p.value ++ r.1, r.2))
    (hhigh : ¬ Json.High p.value) (h : ReadsPieces ps) : ReadsPieces (p :: ps) := by
  have hp : [p].flatMap Json.Piece.bytes = p.bytes := List.append_nil _
  refine @readsPieces_append [p] ps (encodePoint p.value) k ?_ ?_ (fun _ => ⟨[p.value], ?_, ?_⟩) h
  · rw [hp]
    exact hk
  · intro fuel rest
    rw [hp]
    exact hread fuel _
  · exact (List.append_nil _).symm
  · exact Json.joinSurrogates_lone fun hh => absurd hh hhigh

theorem surrogate_of_high {u : Nat} (h : Json.High u) : Surrogate u := by
  unfold Json.High at h
  unfold Surrogate
  omega

/-- The first half of a pair, alone. -/
theorem not_noLone {u : Nat} {us : List Nat} (h : Json.High u) (hnext : ∀ v, us.head? = some v → ¬ Json.Low v) :
    ¬ NoLone (u :: us) := by
  intro hlone
  refine hlone u ?_ (surrogate_of_high h)
  rw [Json.joinSurrogates_lone fun _ => hnext]
  exact List.mem_cons_self

/-- A code unit that is no first half. -/
theorem jsonUnicodeEscape_own {a b c d : Json.Hex} (h : ¬ Json.High (Json.Piece.unit a b c d).value) (t : Bytes) :
    jsonUnicodeEscape ((Json.Piece.unit a b c d).bytes ++ t) =
      some (utf8Put (Json.Piece.unit a b c d).value, t) := by
  have hhigh : ¬ (0xd800 ≤ (Json.Piece.unit a b c d).value ∧ (Json.Piece.unit a b c d).value ≤ 0xdbff) := h
  unfold jsonUnicodeEscape
  rw [jsonU16_unit]
  dsimp only
  rw [if_neg hhigh]

/-- A first half, in front of something that is no escape of a code unit. -/
theorem jsonUnicodeEscape_alone {a b c d : Json.Hex} (h : Json.High (Json.Piece.unit a b c d).value)
    (hnext : jsonU16 t = none) :
    jsonUnicodeEscape ((Json.Piece.unit a b c d).bytes ++ t) =
      some (utf8Put (Json.Piece.unit a b c d).value, t) := by
  have hhigh : 0xd800 ≤ (Json.Piece.unit a b c d).value ∧ (Json.Piece.unit a b c d).value ≤ 0xdbff := h
  unfold jsonUnicodeEscape
  rw [jsonU16_unit]
  dsimp only
  rw [if_pos hhigh, hnext]

/-- A first half in front of an escape of a code unit: that one is read in any case. -/
theorem jsonUnicodeEscape_two {a b c d a' b' c' d' : Json.Hex} (h : Json.High (Json.Piece.unit a b c d).value)
    (t : Bytes) :
    jsonUnicodeEscape ((Json.Piece.unit a b c d).bytes ++ ((Json.Piece.unit a' b' c' d').bytes ++ t)) =
      some (utf8Put (if Json.Low (Json.Piece.unit a' b' c' d').value then
        Json.pair (Json.Piece.unit a b c d).value (Json.Piece.unit a' b' c' d').value
          else (Json.Piece.unit a b c d).value), t) := by
  have hhigh : 0xd800 ≤ (Json.Piece.unit a b c d).value ∧ (Json.Piece.unit a b c d).value ≤ 0xdbff := h
  unfold jsonUnicodeEscape
  rw [jsonU16_unit]
  dsimp only
  rw [if_pos hhigh, jsonU16_unit]
  by_cases hlow : Json.Low (Json.Piece.unit a' b' c' d').value
  · rw [if_pos hlow]
    exact if_pos hlow
  · rw [if_neg hlow]
    exact if_neg hlow

/-- **The pieces** of a literal. -/
theorem readsPieces (ps : List Json.Piece) : ReadsPieces ps := by
  induction hn : ps.length using Nat.strongRecOn generalizing ps with
  | _ n ih =>
    cases ps with
    | nil =>
      intro fuel rest hfuel
      obtain ⟨fuel, rfl⟩ : ∃ m, fuel = m + 1 := ⟨fuel - 1, by omega⟩
      exact ⟨[], jsonStringBody_quote fuel rest, fun _ => rfl⟩
    | cons p ps =>
      rw [List.length_cons] at hn
      have hps := ih ps.length (by omega) ps rfl
      cases p with
      | raw ch hch =>
        refine readsPieces_cons (Nat.le_refl _) (fun fuel t => jsonStringBody_raw (Json.raw_bytes hch) fuel t) ?_ hps
        have hvalid := ch.valid
        unfold UInt32.isValidChar Nat.isValidChar at hvalid
        rintro ⟨h1, h2⟩
        have h1 : 0xd800 ≤ ch.val.toNat := h1
        have h2 : ch.val.toNat ≤ 0xdbff := h2
        omega
      | short e he =>
        have hall : ∀ e ∈ Json.shortEscapes, e.1 ≠ 'u'.toUInt8 ∧
            jsonEscapeChar e.1 = some (UInt8.ofNat e.2) ∧ e.2 ≤ 0x7f := by decide
        obtain ⟨hu, hchar, hle⟩ := hall e he
        have henc : encodePoint e.2 = [UInt8.ofNat e.2] := if_pos hle
        refine @readsPieces_cons (.short e he) ps 1 (Nat.le_succ 1) (fun fuel t => ?_) ?_ hps
        · show jsonStringBody (fuel + 1) ('\\'.toUInt8 :: e.1 :: t) = _
          rw [jsonStringBody_short hu hchar]
          show _ = (jsonStringBody fuel t).map fun r => (encodePoint e.2 ++ r.1, r.2)
          rw [henc]
          rfl
        · rintro ⟨h1, -⟩
          have h1 : 0xd800 ≤ e.2 := h1
          omega
      | unit a b c d =>
        have hlt := (Json.Piece.unit a b c d).value_lt
        by_cases hhigh : Json.High (Json.Piece.unit a b c d).value
        swap
        · -- a code point of its own
          refine @readsPieces_cons (.unit a b c d) ps 1 (Nat.succ_le_succ (Nat.zero_le 5)) (fun fuel t => ?_) hhigh hps
          rw [← utf8Put_eq hlt]
          exact jsonStringBody_unicode (jsonUnicodeEscape_own hhigh t) fuel
        -- a first half: what follows decides
        have halone : (∀ v, (ps.map Json.Piece.value).head? = some v → ¬ Json.Low v) →
            (∀ rest, jsonU16 (ps.flatMap Json.Piece.bytes ++ '"'.toUInt8 :: rest) = none) →
            ReadsPieces (.unit a b c d :: ps) := by
          intro hnext hnone
          refine @readsPieces_append [.unit a b c d] ps (utf8Put (Json.Piece.unit a b c d).value) 1
            (Nat.succ_le_succ (Nat.zero_le _)) (fun fuel rest => ?_) (fun hlone => ?_) hps
          · exact jsonStringBody_unicode (jsonUnicodeEscape_alone hhigh (hnone rest)) fuel
          · exact absurd hlone (not_noLone hhigh hnext)
        cases ps with
        | nil => exact halone nofun fun rest => jsonU16_eq_none (by decide) rest
        | cons p ps =>
          cases p with
          | raw ch hch =>
            refine halone (fun v hv => ?_) fun rest => ?_
            · obtain rfl := Option.some.inj hv
              have hvalid := ch.valid
              unfold UInt32.isValidChar Nat.isValidChar at hvalid
              rintro ⟨h1, h2⟩
              have h1 : 0xdc00 ≤ ch.val.toNat := h1
              have h2 : ch.val.toNat ≤ 0xdfff := h2
              omega
            · have hbytes := Json.raw_bytes hch
              rw [List.flatMap_cons]
              obtain ⟨x, t, hx, -⟩ := encodeChar_shape ch
              show jsonU16 (String.utf8EncodeChar ch ++ _ ++ _) = none
              rw [hx] at hbytes ⊢
              exact jsonU16_eq_none (hbytes x List.mem_cons_self).2 _
          | short e he =>
            have hall : ∀ e ∈ Json.shortEscapes, e.1 ≠ 'u'.toUInt8 ∧ e.2 ≤ 0x7f := by decide
            obtain ⟨hu, hle⟩ := hall e he
            refine halone (fun v hv => ?_) fun rest => jsonU16_short_eq_none hu _
            obtain rfl := Option.some.inj hv
            rintro ⟨h1, -⟩
            have h1 : 0xdc00 ≤ e.2 := h1
            omega
          | unit a' b' c' d' =>
            have hrest := ih ps.length (by rw [List.length_cons] at hn; omega) ps rfl
            -- the loop reads the two in one round
            have hround : ∀ fuel rest, jsonStringBody (fuel + 1)
                ([Json.Piece.unit a b c d, .unit a' b' c' d'].flatMap Json.Piece.bytes ++
                  (ps.flatMap Json.Piece.bytes ++ '"'.toUInt8 :: rest)) =
                (jsonStringBody fuel (ps.flatMap Json.Piece.bytes ++ '"'.toUInt8 :: rest)).map fun r =>
                  (utf8Put (if Json.Low (Json.Piece.unit a' b' c' d').value then
                    Json.pair (Json.Piece.unit a b c d).value (Json.Piece.unit a' b' c' d').value
                      else (Json.Piece.unit a b c d).value) ++ r.1, r.2) := fun fuel rest =>
              jsonStringBody_unicode (jsonUnicodeEscape_two hhigh _) fuel
            refine @readsPieces_append [.unit a b c d, .unit a' b' c' d'] ps _ 1
              (Nat.succ_le_succ (Nat.zero_le _)) hround (fun hlone => ?_) hrest
            by_cases hlow : Json.Low (Json.Piece.unit a' b' c' d').value
            · -- a pair
              refine ⟨[Json.pair (Json.Piece.unit a b c d).value (Json.Piece.unit a' b' c' d').value], ?_,
                Json.joinSurrogates_pair hhigh hlow⟩
              have hpair : Json.pair (Json.Piece.unit a b c d).value (Json.Piece.unit a' b' c' d').value < 0x110000 := by
                obtain ⟨_, _⟩ := hhigh
                obtain ⟨_, _⟩ := hlow
                unfold Json.pair
                omega
              rw [if_pos hlow, utf8Put_eq hpair]
              exact (List.append_nil _).symm
            · -- the second escape is lost
              refine absurd hlone (not_noLone hhigh fun v hv => ?_)
              obtain rfl := Option.some.inj hv
              exact hlow

/-- **A literal**: it is read to its end, as a C string. -/
theorem jsonString_literal (ps : List Json.Piece) (rest : Bytes) : ∃ text,
    jsonString (Json.literal ps ++ rest) = some (cstr text, rest) ∧
      (NoLone (ps.map Json.Piece.value) → text = (Json.decoded ps).flatMap encodePoint) := by
  have hbody : Json.literal ps ++ rest = '"'.toUInt8 :: (ps.flatMap Json.Piece.bytes ++ '"'.toUInt8 :: rest) := by
    show '"'.toUInt8 :: (ps.flatMap Json.Piece.bytes ++ ['"'.toUInt8] ++ rest) = _
    rw [List.append_assoc]
    rfl
  have hws : jsonWs (Json.literal ps ++ rest) =
      '"'.toUInt8 :: (ps.flatMap Json.Piece.bytes ++ '"'.toUInt8 :: rest) := by
    rw [hbody]
    rfl
  obtain ⟨text, htext, hright⟩ := readsPieces ps
    ((ps.flatMap Json.Piece.bytes ++ '"'.toUInt8 :: rest).length + 1) rest (by rw [List.length_append]; omega)
  refine ⟨text, ?_, hright⟩
  unfold jsonString
  rw [hws]
  dsimp only
  rw [if_pos rfl, htext]
  rfl

/-- A literal is decoded, wherever it stands: it is rejected, or read as what it stands for and as valid UTF-8. -/
def Decodes (ps : List Json.Piece) : Prop :=
  ∀ rest, jsonString (Json.literal ps ++ rest) = none ∨
    jsonString (Json.literal ps ++ rest) = some ((Json.decoded ps).flatMap encodePoint, rest) ∧
      Valid ((Json.decoded ps).flatMap encodePoint)

theorem zero_notMem_cstr (s : Bytes) : 0 ∉ cstr s := by
  intro h0
  unfold cstr at h0
  have h := List.all_takeWhile (l := s) (p := fun c => c ≠ 0)
  exact of_decide_eq_true (List.all_eq_true.mp h 0 h0) rfl

/-- **Decoded literals** are those that hold no NUL and no surrogate without its partner. -/
theorem json_string_decodes_iff (ps : List Json.Piece) :
    Decodes ps ↔ ∀ p ∈ Json.decoded ps, p ≠ 0 ∧ ¬ Surrogate p := by
  constructor
  · intro h p hp
    obtain ⟨text, htext, -⟩ := jsonString_literal ps []
    obtain hnone | ⟨hsome, hvalid⟩ := h []
    · rw [htext] at hnone
      exact absurd hnone nofun
    · refine ⟨?_, fun hs => not_valid_of_surrogate hp hs hvalid⟩
      rintro rfl
      -- its byte would be in the text, which ends before it
      rw [htext] at hsome
      have heq := (Prod.mk.inj (Option.some.inj hsome)).1
      refine zero_notMem_cstr text ?_
      rw [heq]
      exact List.mem_flatMap.mpr ⟨0, hp, List.mem_singleton.mpr rfl⟩
  · intro h rest
    obtain ⟨text, htext, hright⟩ := jsonString_literal ps rest
    obtain rfl := hright fun p hp => (h p hp).2
    refine Or.inr ⟨?_, valid_flatMap_encodePoint fun p hp => ⟨Json.decoded_lt ps p hp, (h p hp).2⟩⟩
    have hzero : 0 ∉ (Json.decoded ps).flatMap encodePoint := by
      intro h0
      obtain ⟨p, hp, h0⟩ := List.mem_flatMap.mp h0
      exact zero_notMem_encodePoint (h p hp).1 (Json.decoded_lt ps p hp) h0
    rw [htext, cstr_eq_self hzero]

/-- `\ud800\u0041` -/
def lostEscape : List Json.Piece :=
  [.unit ⟨0x64, 13, by decide⟩ ⟨0x38, 8, by decide⟩ ⟨0x30, 0, by decide⟩ ⟨0x30, 0, by decide⟩,
    .unit ⟨0x30, 0, by decide⟩ ⟨0x30, 0, by decide⟩ ⟨0x34, 4, by decide⟩ ⟨0x31, 1, by decide⟩]

/-- An `A` is lost. -/
theorem json_string_loses_escape : ¬ Decodes lostEscape := by
  intro h
  have hread : jsonString (Json.literal lostEscape ++ []) = some ([0xed, 0xa0, 0x80], []) := by decide
  have hdecoded : (Json.decoded lostEscape).flatMap encodePoint = [0xed, 0xa0, 0x80, 0x41] := by decide
  obtain hnone | ⟨hsome, -⟩ := h []
  · rw [hread] at hnone
    exact absurd hnone nofun
  · rw [hread, hdecoded] at hsome
    exact absurd (Prod.mk.inj (Option.some.inj hsome)).1 (by decide)

end DS4.Server
