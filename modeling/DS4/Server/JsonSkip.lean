import DS4.Server.JsonNumber
import DS4.Server.JsonStrings
import Mathlib.Data.List.DropRight

namespace DS4.Server

/-!
# Server — skipping a JSON value

* `StringBody`, `jsonString_cut` — a string in front of another text.
* `Reads n s toks r` — a value nested at most `n` deep at the start of `s`, with its tokens, in front of `r`.
* `Reads.skips`, `reads_of_skips` — it is what `json_skip_value` skips, with enough fuel.
* `jsonSkipValueDepth_fuel` — the skipper ends by itself.
* `skipCalls` — the depths of the calls of a run; `skipCalls_le`.
* `reads_of_value` — every value of RFC 8259 is read.
-/

open Lib.Json (Part opening closing)

variable {s t r b toks : Bytes}

/-! ### Strings -/

/-- A string behind its first quotation mark, up to the one that is not escaped. -/
inductive StringBody : Bytes → Prop
  | close : StringBody ['"'.toUInt8]
  | char {c : UInt8} {b : Bytes} (hquote : c ≠ '"'.toUInt8) (hslash : c ≠ '\\'.toUInt8) (hb : StringBody b) :
      StringBody (c :: b)
  | escape (e : UInt8) {b : Bytes} (hb : StringBody b) : StringBody ('\\'.toUInt8 :: e :: b)

theorem StringBody.quote_mem (h : StringBody b) : '"'.toUInt8 ∈ b := by
  induction h with
  | close => exact List.mem_cons_self
  | char _ _ _ ih => exact List.mem_cons_of_mem _ ih
  | escape e _ ih => exact List.mem_cons_of_mem _ (List.mem_cons_of_mem e ih)

/-- The escape of a code unit: it has no quotation mark, and it is one in front of any text. -/
theorem jsonU16_cut {v : Nat} (h : jsonU16 s = some (v, r)) :
    ∃ u, s = u ++ r ∧ '"'.toUInt8 ∉ u ∧ (∃ w, u = '\\'.toUInt8 :: 'u'.toUInt8 :: w) ∧ (∀ b, StringBody b → StringBody (u ++ b)) ∧
      ∀ r', jsonU16 (u ++ r') = some (v, r') := by
  have hhex : ∀ c, (jsonHex c).isSome → c ≠ '"'.toUInt8 ∧ c ≠ '\\'.toUInt8 := Lib.forall_uint8 (by decide +kernel)
  unfold jsonU16 at h
  split at h
  · rename_i b₀ u₀ c₀ c₁ c₂ c₃ rest
    split_ifs at h with hstart
    obtain ⟨rfl, rfl⟩ := hstart
    split at h
    · rename_i h₀ h₁ h₂ h₃ e₀ e₁ e₂ e₃
      obtain ⟨rfl, rfl⟩ := Prod.mk.inj (Option.some.inj h)
      obtain ⟨q₀, s₀⟩ := hhex c₀ (by rw [e₀]; rfl)
      obtain ⟨q₁, s₁⟩ := hhex c₁ (by rw [e₁]; rfl)
      obtain ⟨q₂, s₂⟩ := hhex c₂ (by rw [e₂]; rfl)
      obtain ⟨q₃, s₃⟩ := hhex c₃ (by rw [e₃]; rfl)
      refine ⟨['\\'.toUInt8, 'u'.toUInt8, c₀, c₁, c₂, c₃], rfl, ?_, ⟨_, rfl⟩, fun b hb => ?_, fun r' => ?_⟩
      · intro hmem
        simp only [List.mem_cons, List.not_mem_nil, or_false] at hmem
        rcases hmem with h | h | h | h | h | h
        · exact absurd h (by decide)
        · exact absurd h (by decide)
        · exact q₀ h.symm
        · exact q₁ h.symm
        · exact q₂ h.symm
        · exact q₃ h.symm
      · exact .escape _ (.char q₀ s₀ (.char q₁ s₁ (.char q₂ s₂ (.char q₃ s₃ hb))))
      · show jsonU16 ('\\'.toUInt8 :: 'u'.toUInt8 :: c₀ :: c₁ :: c₂ :: c₃ :: r') = _
        rw [jsonU16, if_pos ⟨rfl, rfl⟩, e₀, e₁, e₂, e₃]
    · cases h
  · cases h

/-- What is no escape of a code unit up to a quotation mark is none in front of any text. -/
theorem jsonU16_none_cut (hb : '"'.toUInt8 ∈ b) (h : jsonU16 (b ++ r) = none) (r' : Bytes) : jsonU16 (b ++ r') = none := by
  rw [Option.eq_none_iff_forall_ne_some]
  rintro ⟨v, rest⟩ hsome
  obtain ⟨u, hu, hquote, -, -, hcut⟩ := jsonU16_cut hsome
  rcases List.append_eq_append_iff.1 hu with ⟨w, rfl, -⟩ | ⟨w, rfl, -⟩
  · exact hquote (List.mem_append_left w hb)
  · rw [List.append_assoc, hcut] at h
    cases h

theorem jsonUnicodeEscape_cut {bs : Bytes} (h : jsonUnicodeEscape s = some (bs, b ++ r)) (hb : StringBody b) :
    ∃ u, s = u ++ (b ++ r) ∧ (∃ w, u = '\\'.toUInt8 :: 'u'.toUInt8 :: w) ∧ StringBody (u ++ b) ∧
      ∀ r', jsonUnicodeEscape (u ++ (b ++ r')) = some (bs, b ++ r') := by
  unfold jsonUnicodeEscape at h
  cases hfirst : jsonU16 s with
  | none =>
    rw [hfirst] at h
    cases h
  | some first =>
    obtain ⟨cp, rest⟩ := first
    rw [hfirst] at h
    dsimp only at h
    obtain ⟨u, rfl, -, hstart, hbody, hcut⟩ := jsonU16_cut hfirst
    split_ifs at h with hhigh
    · cases hsecond : jsonU16 rest with
      | none =>
        rw [hsecond] at h
        obtain ⟨rfl, rfl⟩ := Prod.mk.inj (Option.some.inj h)
        refine ⟨u, rfl, hstart, hbody b hb, fun r' => ?_⟩
        unfold jsonUnicodeEscape
        rw [hcut]
        dsimp only
        rw [if_pos hhigh, jsonU16_none_cut hb.quote_mem hsecond]
      | some second =>
        -- the second escape is taken too, whether it is a low surrogate or not
        obtain ⟨lo, rest'⟩ := second
        rw [hsecond] at h
        dsimp only at h
        obtain ⟨u', rfl, -, -, hbody', hcut'⟩ := jsonU16_cut hsecond
        have hrest : rest' = b ++ r := by
          split_ifs at h with hlow
          · exact (Prod.mk.inj (Option.some.inj h)).2
          · exact (Prod.mk.inj (Option.some.inj h)).2
        subst hrest
        refine ⟨u ++ u', by rw [List.append_assoc], ?_, ?_, fun r' => ?_⟩
        · obtain ⟨w, rfl⟩ := hstart
          exact ⟨w ++ u', rfl⟩
        · rw [List.append_assoc]
          exact hbody _ (hbody' b hb)
        · unfold jsonUnicodeEscape
          rw [List.append_assoc, hcut]
          dsimp only
          rw [if_pos hhigh, hcut']
          dsimp only
          split_ifs at h ⊢ with hlow
          · rw [(Prod.mk.inj (Option.some.inj h)).1]
          · rw [(Prod.mk.inj (Option.some.inj h)).1]
    · obtain ⟨rfl, rfl⟩ := Prod.mk.inj (Option.some.inj h)
      refine ⟨u, rfl, hstart, hbody b hb, fun r' => ?_⟩
      unfold jsonUnicodeEscape
      rw [hcut]
      dsimp only
      rw [if_neg hhigh]

/-- The body of a string is cut out of a text. -/
theorem jsonStringBody_cut {fuel : Nat} {text : Bytes} (h : jsonStringBody fuel s = some (text, r)) :
    ∃ b, s = b ++ r ∧ StringBody b ∧
      ∀ r' fuel', b.length ≤ fuel' → jsonStringBody fuel' (b ++ r') = some (text, r') := by
  induction fuel generalizing s text with
  | zero => cases h
  | succ fuel ih =>
    cases s with
    | nil => cases h
    | cons c s =>
      by_cases hquote : c = '"'.toUInt8
      · subst hquote
        rw [jsonStringBody_quote] at h
        obtain ⟨rfl, rfl⟩ := Prod.mk.inj (Option.some.inj h)
        refine ⟨['"'.toUInt8], rfl, .close, fun r' fuel' hfuel => ?_⟩
        obtain ⟨fuel', rfl⟩ : ∃ n, fuel' = n + 1 := ⟨fuel' - 1, by rw [List.length_singleton] at hfuel; omega⟩
        exact jsonStringBody_quote fuel' r'
      by_cases hslash : c = '\\'.toUInt8
      swap
      · rw [jsonStringBody_char hquote hslash] at h
        obtain ⟨⟨text', r₀⟩, hrest, heq⟩ := Option.map_eq_some_iff.1 h
        obtain ⟨rfl, rfl⟩ := Prod.mk.inj heq
        obtain ⟨b, rfl, hb, hcut⟩ := ih hrest
        refine ⟨c :: b, rfl, .char hquote hslash hb, fun r' fuel' hfuel => ?_⟩
        rw [List.length_cons] at hfuel
        obtain ⟨fuel', rfl⟩ : ∃ n, fuel' = n + 1 := ⟨fuel' - 1, by omega⟩
        rw [List.cons_append, jsonStringBody_char hquote hslash, hcut r' fuel' (by omega)]
        rfl
      subst hslash
      cases s with
      | nil => cases h
      | cons e s =>
        by_cases hu : e = 'u'.toUInt8
        · subst hu
          cases hescape : jsonUnicodeEscape ('\\'.toUInt8 :: 'u'.toUInt8 :: s) with
          | none =>
            rw [jsonStringBody.eq_def] at h
            dsimp only at h
            rw [if_neg hquote, if_neg (fun h => h rfl), if_pos rfl, hescape] at h
            cases h
          | some first =>
            obtain ⟨bs, rest⟩ := first
            rw [jsonStringBody_unicode hescape] at h
            obtain ⟨⟨text', r₀⟩, hrest, heq⟩ := Option.map_eq_some_iff.1 h
            obtain ⟨rfl, rfl⟩ := Prod.mk.inj heq
            obtain ⟨b, rfl, hb, hcut⟩ := ih hrest
            obtain ⟨u, hsplit, ⟨w, rfl⟩, hbody, hcut'⟩ := jsonUnicodeEscape_cut hescape hb
            refine ⟨_ ++ b, by rw [hsplit, List.append_assoc], hbody, fun r' fuel' hfuel => ?_⟩
            rw [List.length_append, List.length_cons] at hfuel
            obtain ⟨fuel', rfl⟩ : ∃ n, fuel' = n + 1 := ⟨fuel' - 1, by omega⟩
            have hread := jsonStringBody_unicode (hcut' r') fuel'
            rw [hcut r' fuel' (by omega)] at hread
            rw [List.append_assoc]
            exact hread
        · cases hchar : jsonEscapeChar e with
          | none =>
            rw [jsonStringBody.eq_def] at h
            dsimp only at h
            rw [if_neg hquote, if_neg (fun h => h rfl), if_neg hu, hchar] at h
            cases h
          | some x =>
            rw [jsonStringBody_short hu hchar] at h
            obtain ⟨⟨text', r₀⟩, hrest, heq⟩ := Option.map_eq_some_iff.1 h
            obtain ⟨rfl, rfl⟩ := Prod.mk.inj heq
            obtain ⟨b, rfl, hb, hcut⟩ := ih hrest
            refine ⟨'\\'.toUInt8 :: e :: b, rfl, .escape e hb, fun r' fuel' hfuel => ?_⟩
            rw [List.length_cons, List.length_cons] at hfuel
            obtain ⟨fuel', rfl⟩ : ∃ n, fuel' = n + 1 := ⟨fuel' - 1, by omega⟩
            show jsonStringBody (fuel' + 1) ('\\'.toUInt8 :: e :: (b ++ r')) = _
            rw [jsonStringBody_short hu hchar, hcut r' fuel' (by omega)]
            rfl

/-- A string that is read wherever it stands. -/
def Literal (b : Bytes) : Prop :=
  StringBody b ∧ ∃ text, ∀ s r, jsonWs s = '"'.toUInt8 :: (b ++ r) → jsonString s = some (text, r)

/-- **A string** is cut out of a text. -/
theorem jsonString_cut {text : Bytes} (h : jsonString s = some (text, r)) :
    ∃ b, jsonWs s = '"'.toUInt8 :: (b ++ r) ∧ Literal b := by
  unfold jsonString at h
  cases hws : jsonWs s with
  | nil =>
    rw [hws] at h
    cases h
  | cons c t =>
    rw [hws] at h
    dsimp only at h
    split_ifs at h with hc
    obtain ⟨⟨text', r₀⟩, hbody, heq⟩ := Option.map_eq_some_iff.1 h
    obtain ⟨rfl, rfl⟩ := Prod.mk.inj heq
    obtain ⟨b, rfl, hb, hcut⟩ := jsonStringBody_cut hbody
    refine ⟨b, by rw [hc], hb, cstr text', fun s' r' hws' => ?_⟩
    have hlen : b.length ≤ (b ++ r').length + 1 := by
      rw [List.length_append]
      omega
    unfold jsonString
    rw [hws']
    dsimp only
    rw [if_pos rfl, hcut r' _ hlen]
    rfl

/-! ### Values -/

/-- A literal or a number that is skipped wherever it stands. -/
def Word (a : Bytes) : Prop :=
  a ≠ [] ∧ (∀ c ∈ a, wordByte c = true) ∧ ∀ r, Delimited r → jsonSkipScalar (a ++ r) = some r

/-- What is read before the value of an item, with its tokens. -/
inductive ReadsKey : Bool → Bytes → List Bytes → Bytes → Prop
  | element {s : Bytes} : ReadsKey false s [] s
  | member {s b s₁ s₂ : Bytes} (hb : Literal b) (hws : jsonWs s = '"'.toUInt8 :: (b ++ s₁))
      (hcolon : jsonWs s₁ = ':'.toUInt8 :: s₂) : ReadsKey true s ['"'.toUInt8 :: b, [':'.toUInt8]] s₂

/-- What is read at the start of a text, values nested at most `n` deep, with its tokens, and what follows it.  Items
    end with the bracket that closes them. -/
inductive Reads : Part → Nat → Bytes → List Bytes → Bytes → Prop
  | word {n : Nat} {s a r : Bytes} (ha : Word a) (hws : jsonWs s = a ++ r) (hskip : jsonSkipScalar (a ++ r) = some r) :
      Reads .value n s [a] r
  | string {n : Nat} {s b r : Bytes} (hb : Literal b) (hws : jsonWs s = '"'.toUInt8 :: (b ++ r)) :
      Reads .value n s ['"'.toUInt8 :: b] r
  | empty {n : Nat} {s s₁ r : Bytes} (obj : Bool) (hws : jsonWs s = opening obj :: s₁)
      (hend : jsonWs s₁ = closing obj :: r) : Reads .value (n + 1) s [[opening obj], [closing obj]] r
  | items {n : Nat} {s s₁ r : Bytes} {toks : List Bytes} {obj : Bool} (hws : jsonWs s = opening obj :: s₁)
      (hitems : Reads (.items obj) n (jsonWs s₁) toks r) : Reads .value (n + 1) s ([opening obj] :: toks) r
  | last {obj : Bool} {n : Nat} {s s₁ s₂ r : Bytes} {key toks : List Bytes} (hkey : ReadsKey obj s key s₁)
      (hvalue : Reads .value n s₁ toks s₂) (hend : jsonWs s₂ = closing obj :: r) :
      Reads (.items obj) n s (key ++ (toks ++ [[closing obj]])) r
  | more {obj : Bool} {n : Nat} {s s₁ s₂ s₃ r : Bytes} {key toks rest : List Bytes} (hkey : ReadsKey obj s key s₁)
      (hvalue : Reads .value n s₁ toks s₂) (hcomma : jsonWs s₂ = ','.toUInt8 :: s₃)
      (hrest : Reads (.items obj) n s₃ rest r) : Reads (.items obj) n s (key ++ (toks ++ [','.toUInt8] :: rest)) r

theorem isspace_of_jsonWs {c : UInt8} (h : jsonWs s = c :: t) : isspace c = false := by
  have hne : s.dropWhile isspace ≠ [] := by
    intro hnil
    exact List.cons_ne_nil c t (h.symm.trans hnil)
  have hhead := List.head_dropWhile_not isspace hne
  have hc : (s.dropWhile isspace).head hne = c := by
    have h' : s.dropWhile isspace = c :: t := h
    simp only [h', List.head_cons]
  rwa [hc] at hhead

theorem jsonWs_jsonWs (s : Bytes) : jsonWs (jsonWs s) = jsonWs s := List.dropWhile_idempotent isspace s

theorem jsonWs_length_le (s : Bytes) : (jsonWs s).length ≤ s.length := (List.dropWhile_suffix _).length_le

theorem length_lt_of_jsonWs {c : UInt8} (h : jsonWs s = c :: t) : t.length < s.length := by
  have hle := jsonWs_length_le s
  rw [h, List.length_cons] at hle
  omega

theorem ReadsKey.length_le {obj : Bool} {key : List Bytes} (h : ReadsKey obj s key r) : r.length ≤ s.length := by
  cases h with
  | element => exact Nat.le_refl _
  | member hb hws hcolon =>
    have h₁ := length_lt_of_jsonWs hws
    have h₂ := length_lt_of_jsonWs hcolon
    rw [List.length_append] at h₁
    omega

theorem Reads.length_le {part : Part} {n : Nat} {toks : List Bytes} (h : Reads part n s toks r) :
    r.length ≤ s.length := by
  induction h with
  | @word n s a r _ hws _ =>
    have hle := jsonWs_length_le s
    rw [hws, List.length_append] at hle
    omega
  | string _ hws =>
    have hlt := length_lt_of_jsonWs hws
    rw [List.length_append] at hlt
    omega
  | empty obj hws hend =>
    have h₁ := length_lt_of_jsonWs hws
    have h₂ := length_lt_of_jsonWs hend
    omega
  | @items n s s₁ r toks obj hws _ ih =>
    have h₁ := length_lt_of_jsonWs hws
    have h₂ := jsonWs_length_le s₁
    omega
  | last hkey _ hend ih =>
    have h₁ := hkey.length_le
    have h₃ := length_lt_of_jsonWs hend
    omega
  | more hkey _ hcomma _ ih ih' =>
    have h₁ := hkey.length_le
    have h₃ := length_lt_of_jsonWs hcomma
    omega

/-- The bytes of words against brackets and quotation marks, and those of space. -/
theorem word_space_bytes : ∀ c : UInt8,
    (wordByte c = true → (∀ obj, c ≠ closing obj) ∧ c ≠ '"'.toUInt8 ∧ c ≠ '\x7b'.toUInt8 ∧ c ≠ '['.toUInt8) ∧
      ((c = 0x20 ∨ c = 0x09 ∨ c = 0x0a ∨ c = 0x0d) → isspace c = true ∧ goesOn c = false) :=
  Lib.forall_uint8 (by decide +kernel)

/-- Something is read, and it does not start with a bracket that closes. -/
theorem Reads.head {part : Part} {n : Nat} {toks : List Bytes} (h : Reads part n s toks r) :
    ∃ c t, jsonWs s = c :: t ∧ ∀ obj, c ≠ closing obj := by
  have hword : ∀ c, wordByte c = true → ∀ obj, c ≠ closing obj := fun c hc => ((word_space_bytes c).1 hc).1
  have hopening : ∀ obj obj', opening obj ≠ closing obj' := by decide
  have hkey : ∀ {obj : Bool} {key : List Bytes} {s s₁ : Bytes}, ReadsKey obj s key s₁ →
      (∃ c t, jsonWs s₁ = c :: t ∧ ∀ obj, c ≠ closing obj) → ∃ c t, jsonWs s = c :: t ∧ ∀ obj, c ≠ closing obj := by
    intro obj key s s₁ hkey hvalue
    cases hkey with
    | element => exact hvalue
    | member hb hws hcolon => exact ⟨_, _, hws, by decide⟩
  induction h with
  | @word n s a r ha hws _ =>
    obtain ⟨c, t, rfl⟩ := List.exists_cons_of_ne_nil ha.1
    exact ⟨c, t ++ r, hws, hword c (ha.2.1 c List.mem_cons_self)⟩
  | string hb hws => exact ⟨_, _, hws, by decide⟩
  | empty obj hws hend => exact ⟨_, _, hws, hopening obj⟩
  | items hws hitems _ => exact ⟨_, _, hws, hopening _⟩
  | last hk _ _ ih => exact hkey hk ih
  | more hk _ _ _ ih _ => exact hkey hk ih

/-! ### The skipper -/

/-- The functions of the skipper, by the part they skip. -/
def skipPart : Part → Nat → Nat → Bytes → Option Bytes
  | .value       => jsonSkipValueDepth
  | .items false => jsonSkipElems
  | .items true  => jsonSkipMembers

variable {fuel depth : Nat} {c : UInt8}

theorem skipValue_word (hws : jsonWs s = c :: t) (hc : wordByte c = true) :
    jsonSkipValueDepth (fuel + 1) depth s = jsonSkipScalar (c :: t) := by
  obtain ⟨h₁, h₂, h₃⟩ := ((word_space_bytes c).1 hc).2
  rw [jsonSkipValueDepth, hws]
  dsimp only
  rw [if_neg h₁, if_neg h₂, if_neg h₃]

theorem skipValue_string (hws : jsonWs s = '"'.toUInt8 :: t) :
    jsonSkipValueDepth (fuel + 1) depth s = (jsonString ('"'.toUInt8 :: t)).map Prod.snd := by
  rw [jsonSkipValueDepth, hws]
  dsimp only
  rw [if_pos rfl]

/-- An opening bracket. -/
theorem skipValue_opening {obj : Bool} (hws : jsonWs s = opening obj :: t) :
    jsonSkipValueDepth (fuel + 1) depth s =
      if JSON_MAX_NESTING ≤ depth then none
      else
        match jsonWs t with
        | []     => skipPart (.items obj) fuel depth []
        | d :: u => if d = closing obj then some u else skipPart (.items obj) fuel depth (d :: u) := by
  rw [jsonSkipValueDepth, hws]
  dsimp only
  cases obj with
  | false => rw [if_neg (by decide), if_neg (by decide), if_pos (by decide)]; rfl
  | true => rw [if_neg (by decide), if_pos (by decide)]; rfl

/-- What stands behind a value of an array or an object. -/
def skipRest (obj : Bool) (fuel depth : Nat) (s : Bytes) : Option Bytes :=
  match jsonWs s with
  | []     => none
  | c :: t =>
    if c = closing obj then some t
    else if c = ','.toUInt8 then skipPart (.items obj) fuel depth t
    else none

theorem skipElems_succ : jsonSkipElems (fuel + 1) depth s =
    (jsonSkipValueDepth fuel (depth + 1) s).bind (skipRest false fuel depth) := by
  rw [jsonSkipElems]
  cases jsonSkipValueDepth fuel (depth + 1) s <;> rfl

theorem skipMembers_succ : jsonSkipMembers (fuel + 1) depth s =
    (jsonString s).bind fun key =>
      match jsonWs key.2 with
      | []         => none
      | c :: value =>
        if c = ':'.toUInt8 then (jsonSkipValueDepth fuel (depth + 1) value).bind (skipRest true fuel depth)
        else none := by
  rw [jsonSkipMembers]
  cases jsonString s with
  | none => rfl
  | some key =>
    obtain ⟨name, afterKey⟩ := key
    rw [Option.bind_some]
    dsimp only
    cases jsonWs afterKey with
    | nil => rfl
    | cons c value =>
      dsimp only
      by_cases hc : c = ':'.toUInt8
      · rw [if_neg (not_not.2 hc), if_pos hc]
        cases jsonSkipValueDepth fuel (depth + 1) value <;> rfl
      · rw [if_pos hc, if_neg hc]

/-- An item that is read, and what follows it. -/
theorem skipItems_succ {obj : Bool} {key : List Bytes} {s₁ s₂ : Bytes} (hkey : ReadsKey obj s key s₁)
    (hvalue : jsonSkipValueDepth fuel (depth + 1) s₁ = some s₂) :
    skipPart (.items obj) (fuel + 1) depth s = skipRest obj fuel depth s₂ := by
  cases hkey with
  | element => exact (skipElems_succ).trans (by rw [hvalue]; rfl)
  | member hb hws hcolon =>
    obtain ⟨text, htext⟩ := hb.2
    refine (skipMembers_succ).trans ?_
    rw [htext _ _ hws, Option.bind_some]
    dsimp only
    rw [hcolon]
    dsimp only
    rw [if_pos rfl, hvalue]
    rfl

/-- The fuel a part of a text needs. -/
def partFuel : Part → Bytes → Nat
  | .value, s   => 2 * s.length + 1
  | .items _, s => 2 * s.length + 2

/-- The depth of the values of a part. -/
def partDepth : Part → Nat → Nat
  | .value, depth   => depth
  | .items _, depth => depth + 1

@[simp] theorem partFuel_value (s : Bytes) : partFuel .value s = 2 * s.length + 1 := rfl

@[simp] theorem partFuel_items (obj : Bool) (s : Bytes) : partFuel (.items obj) s = 2 * s.length + 2 := rfl

@[simp] theorem partDepth_value (depth : Nat) : partDepth .value depth = depth := rfl

@[simp] theorem partDepth_items (obj : Bool) (depth : Nat) : partDepth (.items obj) depth = depth + 1 := rfl

/-- **Completeness.**  What is read is skipped, with enough fuel. -/
theorem Reads.skips {part : Part} {n depth fuel : Nat} {toks : List Bytes} (h : Reads part n s toks r)
    (hdepth : partDepth part depth + n ≤ JSON_MAX_NESTING) (hfuel : partFuel part s ≤ fuel) :
    skipPart part fuel depth s = some r := by
  have hcomma : ∀ obj, ','.toUInt8 ≠ closing obj := by decide
  induction h generalizing depth fuel with
  | @word n s a r ha hws hskip =>
    rw [partFuel_value] at hfuel
    obtain ⟨fuel, rfl⟩ : ∃ k, fuel = k + 1 := ⟨fuel - 1, by omega⟩
    obtain ⟨c, a, rfl⟩ := List.exists_cons_of_ne_nil ha.1
    exact (skipValue_word hws (ha.2.1 c List.mem_cons_self)).trans hskip
  | string hb hws =>
    rw [partFuel_value] at hfuel
    obtain ⟨fuel, rfl⟩ : ∃ k, fuel = k + 1 := ⟨fuel - 1, by omega⟩
    obtain ⟨text, htext⟩ := hb.2
    refine (skipValue_string hws).trans ?_
    rw [htext ('"'.toUInt8 :: _) _ rfl]
    rfl
  | empty obj hws hend =>
    rw [partFuel_value] at hfuel
    obtain ⟨fuel, rfl⟩ : ∃ k, fuel = k + 1 := ⟨fuel - 1, by omega⟩
    rw [partDepth_value] at hdepth
    refine (skipValue_opening hws).trans ?_
    rw [if_neg (by omega), hend]
    exact if_pos rfl
  | @items n s s₁ r toks obj hws hitems ih =>
    have hlt := length_lt_of_jsonWs hws
    have hle := jsonWs_length_le s₁
    simp only [partFuel_value, partFuel_items, partDepth_value, partDepth_items] at hdepth hfuel ih
    obtain ⟨fuel, rfl⟩ : ∃ k, fuel = k + 1 := ⟨fuel - 1, by omega⟩
    have hrest := @ih depth fuel (by omega) (by omega)
    obtain ⟨c, t, hhead, hc⟩ := hitems.head
    rw [jsonWs_jsonWs] at hhead
    refine (skipValue_opening hws).trans ?_
    rw [if_neg (by omega), hhead]
    dsimp only
    rw [if_neg (hc obj), ← hhead]
    exact hrest
  | @last obj n s s₁ s₂ r key toks hkey hvalue hend ih =>
    have hle := hkey.length_le
    simp only [partFuel_value, partFuel_items, partDepth_value, partDepth_items] at hdepth hfuel ih
    obtain ⟨fuel, rfl⟩ : ∃ k, fuel = k + 1 := ⟨fuel - 1, by omega⟩
    have hskip := @ih (depth + 1) fuel (by omega) (by omega)
    rw [skipItems_succ hkey hskip, skipRest, hend]
    exact if_pos rfl
  | @more obj n s s₁ s₂ s₃ r key toks rest hkey hvalue hcomma' hrest ih ih' =>
    have hle := hkey.length_le
    have hle' := hvalue.length_le
    have hlt := length_lt_of_jsonWs hcomma'
    simp only [partFuel_value, partFuel_items, partDepth_value, partDepth_items] at hdepth hfuel ih ih'
    obtain ⟨fuel, rfl⟩ : ∃ k, fuel = k + 1 := ⟨fuel - 1, by omega⟩
    have hskip := @ih (depth + 1) fuel (by omega) (by omega)
    have hskip' := @ih' depth fuel (by omega) (by omega)
    rw [skipItems_succ hkey hskip, skipRest, hcomma']
    dsimp only
    rw [if_neg (hcomma obj), if_pos rfl, hskip']

/-- What follows a value among items, when the items are skipped from there. -/
theorem reads_of_skipRest {obj : Bool} {n : Nat} {s₁ s₂ : Bytes} {key toks : List Bytes}
    (hkey : ReadsKey obj s key s₁) (hvalue : Reads .value n s₁ toks s₂)
    (ih : ∀ s₃, skipPart (.items obj) fuel depth s₃ = some r → ∃ toks, Reads (.items obj) n s₃ toks r)
    (h : skipRest obj fuel depth s₂ = some r) : ∃ toks, Reads (.items obj) n s toks r := by
  unfold skipRest at h
  cases hws : jsonWs s₂ with
  | nil =>
    rw [hws] at h
    cases h
  | cons c t =>
    rw [hws] at h
    dsimp only at h
    split_ifs at h with hend hcomma
    · obtain rfl := Option.some.inj h
      exact ⟨_, .last hkey hvalue (by rw [hws, hend])⟩
    · obtain ⟨rest, hrest⟩ := ih t h
      exact ⟨_, .more hkey hvalue (by rw [hws, hcomma]) hrest⟩

/-- **Soundness.**  What is skipped is read. -/
theorem reads_of_skips {part : Part} {n : Nat} (hdepth : partDepth part depth + n = JSON_MAX_NESTING)
    (h : skipPart part fuel depth s = some r) : ∃ toks, Reads part n s toks r := by
  induction fuel generalizing part depth n s r with
  | zero =>
    match part, h with
    | .value, h => exact absurd h (by rw [skipPart, jsonSkipValueDepth]; exact nofun)
    | .items false, h => exact absurd h (by rw [skipPart, jsonSkipElems]; exact nofun)
    | .items true, h => exact absurd h (by rw [skipPart, jsonSkipMembers]; exact nofun)
  | succ fuel ih =>
    match part with
    | .value =>
      rw [partDepth_value] at hdepth
      have h : jsonSkipValueDepth (fuel + 1) depth s = some r := h
      -- an opening bracket
      have hopening : ∀ obj t, jsonWs s = opening obj :: t → ∃ toks, Reads .value n s toks r := by
        intro obj t hws
        rw [skipValue_opening hws] at h
        split_ifs at h with hmax
        obtain ⟨n, rfl⟩ : ∃ k, n = k + 1 := ⟨n - 1, by omega⟩
        have hitems : skipPart (.items obj) fuel depth (jsonWs t) = some r →
            ∃ toks, Reads .value (n + 1) s toks r := by
          intro hskip
          obtain ⟨toks, htoks⟩ := ih (n := n) (by rw [partDepth_items]; omega) hskip
          exact ⟨_, .items hws htoks⟩
        cases hws' : jsonWs t with
        | nil =>
          rw [hws'] at h hitems
          exact hitems h
        | cons d u =>
          rw [hws'] at h hitems
          dsimp only at h
          split_ifs at h with hd
          · obtain rfl := Option.some.inj h
            exact ⟨_, .empty obj hws (by rw [hws', hd])⟩
          · exact hitems h
      cases hws : jsonWs s with
      | nil =>
        rw [jsonSkipValueDepth, hws] at h
        cases h
      | cons c t =>
        have hidem : jsonWs (c :: t) = c :: t := by rw [← hws, jsonWs_jsonWs]
        by_cases hquote : c = '"'.toUInt8
        · subst hquote
          rw [skipValue_string hws] at h
          obtain ⟨⟨text, r₀⟩, hstring, rfl⟩ := Option.map_eq_some_iff.1 h
          obtain ⟨b, hb, hliteral⟩ := jsonString_cut hstring
          rw [hidem] at hb
          exact ⟨_, .string hliteral (hws.trans hb)⟩
        by_cases hobject : c = '\x7b'.toUInt8
        · exact hopening true t (by rw [hws, hobject]; rfl)
        by_cases harray : c = '['.toUInt8
        · exact hopening false t (by rw [hws, harray]; rfl)
        rw [jsonSkipValueDepth, hws] at h
        dsimp only at h
        rw [if_neg hquote, if_neg hobject, if_neg harray] at h
        have hhead : ∀ d ∈ (c :: t).head?, isspace d = false := by
          intro d hd
          rw [← Option.some.inj hd]
          exact isspace_of_jsonWs hws
        obtain ⟨a, ha, hne, hbytes, hcut⟩ := jsonSkipScalar_cut hhead h
        rw [ha] at hws h
        exact ⟨_, .word ⟨hne, hbytes, hcut⟩ hws h⟩
    | .items false =>
      rw [partDepth_items] at hdepth
      have h : jsonSkipElems (fuel + 1) depth s = some r := h
      rw [skipElems_succ] at h
      obtain ⟨s₂, hvalue, hrest⟩ := Option.bind_eq_some_iff.1 h
      have hread : ∃ toks, Reads .value n s toks s₂ := ih hdepth hvalue
      obtain ⟨toks, htoks⟩ := hread
      exact reads_of_skipRest .element htoks (fun _ hskip => ih (by rw [partDepth_items]; exact hdepth) hskip) hrest
    | .items true =>
      rw [partDepth_items] at hdepth
      have h : jsonSkipMembers (fuel + 1) depth s = some r := h
      rw [skipMembers_succ] at h
      obtain ⟨⟨text, s₁⟩, hstring, h⟩ := Option.bind_eq_some_iff.1 h
      obtain ⟨b, hb, hliteral⟩ := jsonString_cut hstring
      dsimp only at h
      cases hcolon : jsonWs s₁ with
      | nil =>
        rw [hcolon] at h
        cases h
      | cons c value =>
        rw [hcolon] at h
        dsimp only at h
        split_ifs at h with hc
        obtain ⟨s₂, hvalue, hrest⟩ := Option.bind_eq_some_iff.1 h
        have hread : ∃ toks, Reads .value n value toks s₂ := ih hdepth hvalue
        obtain ⟨toks, htoks⟩ := hread
        exact reads_of_skipRest (.member hliteral hb (by rw [hcolon, hc])) htoks
          (fun _ hskip => ih (by rw [partDepth_items]; exact hdepth) hskip) hrest

/-- **The skipper ends by itself**: fuel beyond what its text needs changes nothing. -/
theorem jsonSkipValueDepth_fuel (hdepth : depth ≤ JSON_MAX_NESTING) (hfuel : 2 * s.length + 1 ≤ fuel) :
    jsonSkipValueDepth fuel depth s = jsonSkipValueDepth (2 * s.length + 1) depth s := by
  have hadd : partDepth .value depth + (JSON_MAX_NESTING - depth) = JSON_MAX_NESTING := Nat.add_sub_cancel' hdepth
  have hread : ∀ {k k' : Nat} {r : Bytes}, 2 * s.length + 1 ≤ k' → jsonSkipValueDepth k depth s = some r →
      jsonSkipValueDepth k' depth s = some r := by
    intro k k' r hk' h
    have hread : ∃ toks, Reads .value (JSON_MAX_NESTING - depth) s toks r := reads_of_skips hadd h
    obtain ⟨toks, htoks⟩ := hread
    exact htoks.skips (Nat.le_of_eq hadd) hk'
  cases h : jsonSkipValueDepth fuel depth s with
  | some r => exact (hread (Nat.le_refl _) h).symm
  | none =>
    cases h' : jsonSkipValueDepth (2 * s.length + 1) depth s with
    | none => rfl
    | some r => exact h.symm.trans (hread hfuel h')

theorem jsonSkipValue_eq_some_iff : jsonSkipValue s = some r ↔ ∃ toks, Reads .value JSON_MAX_NESTING s toks r := by
  have hadd : partDepth .value 0 + JSON_MAX_NESTING = JSON_MAX_NESTING := Nat.zero_add _
  constructor
  · exact fun h => reads_of_skips hadd h
  · rintro ⟨toks, htoks⟩
    exact htoks.skips (Nat.le_of_eq hadd) (Nat.le_succ _)

/-! ### The depth of the recursion -/

/-- What follows the key of a member, with its colon. -/
def keyRest (s : Bytes) : Option Bytes :=
  match jsonString s with
  | none            => none
  | some (_, after) =>
    match jsonWs after with
    | []         => none
    | c :: value => if c = ':'.toUInt8 then some value else none

mutual

/-- The depths of the calls of `json_skip_value_depth` in a run of the skipper. -/
def skipCalls : Nat → Nat → Bytes → List Nat
  | 0, _, _            => []
  | fuel + 1, depth, s =>
    depth ::
      match jsonWs s with
      | []     => []
      | c :: t =>
        if c = '\x7b'.toUInt8 ∨ c = '['.toUInt8 then
          let obj := decide (c = '\x7b'.toUInt8)
          if JSON_MAX_NESTING ≤ depth ∨ (jsonWs t).head? = some (closing obj) then []
          else skipItemsCalls obj fuel depth (jsonWs t)
        else []

/-- The calls in a run of the loops. -/
def skipItemsCalls : Bool → Nat → Nat → Bytes → List Nat
  | _, 0, _, _              => []
  | obj, fuel + 1, depth, s =>
    match if obj then keyRest s else some s with
    | none       => []
    | some value =>
      skipCalls fuel (depth + 1) value ++
        match (jsonSkipValueDepth fuel (depth + 1) value).map jsonWs with
        | some (c :: t) => if c = ','.toUInt8 then skipItemsCalls obj fuel depth t else []
        | _             => []

end

/-- **The recursion is bounded**: no call is deeper than the limit. -/
theorem skipCalls_le (fuel : Nat) :
    (∀ depth s, depth ≤ JSON_MAX_NESTING → ∀ d ∈ skipCalls fuel depth s, d ≤ JSON_MAX_NESTING) ∧
      ∀ obj depth s, depth < JSON_MAX_NESTING → ∀ d ∈ skipItemsCalls obj fuel depth s, d ≤ JSON_MAX_NESTING := by
  induction fuel with
  | zero =>
    constructor
    · intro depth s _ d hd
      rw [skipCalls] at hd
      cases hd
    · intro obj depth s _ d hd
      rw [skipItemsCalls] at hd
      cases hd
  | succ fuel ih =>
    obtain ⟨ihValue, ihItems⟩ := ih
    constructor
    · intro depth s hdepth d hd
      rw [skipCalls] at hd
      rcases List.mem_cons.1 hd with rfl | hd
      · exact hdepth
      · split at hd
        · cases hd
        · dsimp only at hd
          split_ifs at hd with hopening hmax
          · cases hd
          · exact ihItems _ _ _ (Nat.not_le.1 fun h => hmax (Or.inl h)) d hd
          · cases hd
    · intro obj depth s hdepth d hd
      rw [skipItemsCalls] at hd
      split at hd
      · cases hd
      · rcases List.mem_append.1 hd with hd | hd
        · exact ihValue _ _ hdepth d hd
        · split at hd
          · split_ifs at hd
            · exact ihItems _ _ _ hdepth d hd
            · cases hd
          · cases hd

/-! ### Values of RFC 8259 -/

/-- White space in front changes nothing. -/
theorem Reads.of_jsonWs {part : Part} {n : Nat} {toks : List Bytes} {s' : Bytes} (h : Reads part n s toks r)
    (heq : jsonWs s' = jsonWs s) : Reads part n s' toks r := by
  induction h generalizing s' with
  | word ha hws hskip => exact .word ha (heq.trans hws) hskip
  | string hb hws => exact .string hb (heq.trans hws)
  | empty obj hws hend => exact .empty obj (heq.trans hws) hend
  | items hws hitems _ => exact .items (heq.trans hws) hitems
  | last hkey hvalue hend ih =>
    cases hkey with
    | element => exact .last .element (ih heq) hend
    | member hb hws hcolon => exact .last (.member hb (heq.trans hws) hcolon) hvalue hend
  | more hkey hvalue hcomma hrest ih _ =>
    cases hkey with
    | element => exact .more .element (ih heq) hcomma hrest
    | member hb hws hcolon => exact .more (.member hb (heq.trans hws) hcolon) hvalue hcomma hrest

theorem jsonWs_space {w : Bytes} (hw : Lib.Json.Space w) (s : Bytes) : jsonWs (w ++ s) = jsonWs s := by
  have hspace : ∀ c : UInt8, (c = 0x20 ∨ c = 0x09 ∨ c = 0x0a ∨ c = 0x0d) → isspace c = true :=
    fun c hc => ((word_space_bytes c).2 hc).1
  exact List.dropWhile_append_of_pos fun c hc => hspace c (hw c hc)

theorem jsonWs_cons {c : UInt8} (hc : isspace c = false) (s : Bytes) : jsonWs (c :: s) = c :: s :=
  List.dropWhile_cons_of_neg (by simp [hc])

/-- White space, and then a byte that does not continue a number. -/
theorem delimited_space {w : Bytes} {c : UInt8} (hw : Lib.Json.Space w) (hc : goesOn c = false) (s : Bytes) :
    Delimited (w ++ c :: s) := by
  have hspace : ∀ c : UInt8, (c = 0x20 ∨ c = 0x09 ∨ c = 0x0a ∨ c = 0x0d) → goesOn c = false :=
    fun c hc => ((word_space_bytes c).2 hc).2
  intro d hd
  cases w with
  | nil =>
    rw [← Option.some.inj hd]
    exact hc
  | cons x w =>
    rw [← Option.some.inj hd]
    exact hspace x (hw x List.mem_cons_self)

/-- A string literal of RFC 8259. -/
theorem literal_spec (ps : List Lib.Json.Piece) :
    ∃ b, Literal b ∧ ∀ w s, Lib.Json.Space w → jsonWs (w ++ (Lib.Json.literal ps ++ s)) = '"'.toUInt8 :: (b ++ s) := by
  obtain ⟨text, htext, -⟩ := jsonString_literal ps []
  obtain ⟨b, hb, hliteral⟩ := jsonString_cut htext
  have hws : ∀ s, jsonWs (Lib.Json.literal ps ++ s) = Lib.Json.literal ps ++ s := fun s => jsonWs_cons (by decide) _
  rw [hws, List.append_nil, List.append_nil] at hb
  refine ⟨b, hliteral, fun w s hw => ?_⟩
  rw [jsonWs_space hw, hws, hb, List.cons_append]

theorem readsKey_key {obj : Bool} {k : Bytes} (hk : Lib.Json.Key obj k) (t : Bytes) :
    ∃ key w, Lib.Json.Space w ∧ ReadsKey obj (k ++ t) key (w ++ t) := by
  cases hk with
  | element hw => exact ⟨[], k, hw, .element⟩
  | @member w w' w'' ps hw hw' hw'' =>
    obtain ⟨b, hb, hws⟩ := literal_spec ps
    have hcolon : jsonWs (w' ++ ':'.toUInt8 :: (w'' ++ t)) = ':'.toUInt8 :: (w'' ++ t) := by
      rw [jsonWs_space hw']
      exact jsonWs_cons (by decide) _
    refine ⟨_, w'', hw'', .member hb ?_ hcolon⟩
    have h := hws w (w' ++ ':'.toUInt8 :: (w'' ++ t)) hw
    simp only [List.append_assoc, List.cons_append]
    exact h

/-- What a text of RFC 8259 is for the skipper. -/
def ReadText : Part → Nat → Bytes → Prop
  | .value, n, v      => ∀ w r, Lib.Json.Space w → Delimited r → ∃ toks, Reads .value n (w ++ (v ++ r)) toks r
  | .items obj, n, es => ∀ r, ∃ toks, Reads (.items obj) n (es ++ closing obj :: r) toks r

/-- **Every value** of RFC 8259 is read. -/
theorem readText {part : Part} {n : Nat} {v : Bytes} (h : Lib.Json.Text part n v) : ReadText part n v := by
  have hopening : ∀ obj, isspace (opening obj) = false ∧ isspace (closing obj) = false ∧ goesOn (closing obj) = false := by
    decide
  induction h with
  | @word n w hw =>
    intro w₀ r hw₀ hr
    have hbytes := words_bytes
    refine ⟨_, .word ⟨(hbytes w hw).1, (hbytes w hw).2, fun r _ => jsonSkipScalar_word hw r⟩ ?_
      (jsonSkipScalar_word hw r)⟩
    rw [jsonWs_space hw₀]
    obtain ⟨c, t, hct⟩ := List.exists_cons_of_ne_nil (hbytes w hw).1
    rw [hct, List.cons_append]
    exact jsonWs_cons (isspace_of_wordByte c ((hbytes w hw).2 c (by rw [hct]; exact List.mem_cons_self))) _
  | @number n x hx =>
    intro w r hw hr
    obtain ⟨hskip, hhead, hbytes⟩ := jsonSkipScalar_of_number hx
    have hne : x ≠ [] := by
      obtain ⟨c, t, rfl, -⟩ := hhead
      exact List.cons_ne_nil c t
    refine ⟨_, .word ⟨hne, hbytes, hskip⟩ ?_ (hskip r hr)⟩
    rw [jsonWs_space hw]
    exact hhead.jsonWs r
  | string ps =>
    intro w r hw _
    obtain ⟨b, hb, hws⟩ := literal_spec ps
    exact ⟨_, .string hb (hws w r hw)⟩
  | @empty n w obj hw =>
    intro w₀ r hw₀ _
    have hend : jsonWs (w ++ closing obj :: r) = closing obj :: r := by
      rw [jsonWs_space hw]
      exact jsonWs_cons (hopening obj).2.1 _
    refine ⟨_, .empty obj ?_ hend⟩
    rw [jsonWs_space hw₀, List.cons_append, List.append_assoc, List.singleton_append]
    exact jsonWs_cons (hopening obj).1 _
  | @items n es obj hes ih =>
    intro w r hw _
    obtain ⟨toks, htoks⟩ := ih r
    refine ⟨_, .items ?_ (htoks.of_jsonWs (jsonWs_jsonWs (es ++ closing obj :: r)))⟩
    rw [jsonWs_space hw, List.cons_append, List.append_assoc, List.singleton_append]
    exact jsonWs_cons (hopening obj).1 _
  | @last obj n k v w hk hv hw ih =>
    intro r
    obtain ⟨key, w₀, hw₀, hkey⟩ := readsKey_key hk (v ++ (w ++ closing obj :: r))
    obtain ⟨toks, htoks⟩ := ih w₀ (w ++ closing obj :: r) hw₀ (delimited_space hw (hopening obj).2.2 r)
    refine ⟨key ++ (toks ++ [[closing obj]]), ?_⟩
    rw [List.append_assoc, List.append_assoc]
    refine .last hkey htoks ?_
    rw [jsonWs_space hw]
    exact jsonWs_cons (hopening obj).2.1 _
  | @more obj n k v w es hk hv hw hes ih ih' =>
    intro r
    obtain ⟨key, w₀, hw₀, hkey⟩ := readsKey_key hk (v ++ (w ++ ','.toUInt8 :: (es ++ closing obj :: r)))
    obtain ⟨toks, htoks⟩ := ih w₀ (w ++ ','.toUInt8 :: (es ++ closing obj :: r)) hw₀ (delimited_space hw (by decide) _)
    obtain ⟨rest, hrest⟩ := ih' r
    refine ⟨key ++ (toks ++ [','.toUInt8] :: rest), ?_⟩
    rw [List.append_assoc, List.append_assoc, List.append_assoc, List.cons_append]
    refine .more hkey htoks ?_ hrest
    rw [jsonWs_space hw]
    exact jsonWs_cons (by decide) _

end DS4.Server
