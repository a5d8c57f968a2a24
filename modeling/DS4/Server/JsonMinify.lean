import DS4.Server.JsonSkip

namespace DS4.Server

/-!
# Server — minifying a JSON value

* `tokens` — the tokens of a text: strings, words and single brackets, commas and colons.
* `Compacts p c toks` — `c` holds the tokens `toks`, and is minified to them, in front of any text with `p`.
* `Reads.compacts` — what is read is minified to its tokens.
* `Reads.compact` — the tokens alone are read again.
* `json_skip_minify` — skipping and minifying, for every text.
-/

open Lib.Json (Part opening closing)

variable {s t r b e : Bytes} {c : UInt8} {toks : List Bytes}

/-! ### Tokens -/

/-- What follows the quotation mark that ends a string. -/
def stringTail : Bytes → Bytes
  | []          => []
  | [_]         => []
  | c :: d :: s =>
    if c = '"'.toUInt8 then d :: s
    else if c = '\\'.toUInt8 then stringTail s
    else stringTail (d :: s)

/-- What follows the token that starts with `c`. -/
def tokenTail (c : UInt8) (t : Bytes) : Bytes :=
  if c = '"'.toUInt8 then stringTail t
  else if wordByte c then t.dropWhile wordByte
  else t

/-- The tokens of a text, with fuel. -/
def tokensFrom : Nat → Bytes → List Bytes
  | 0, _        => []
  | fuel + 1, s =>
    match jsonWs s with
    | []     => []
    | c :: t => (c :: t).take (t.length + 1 - (tokenTail c t).length) :: tokensFrom fuel (tokenTail c t)

/-- The tokens of a text. -/
def tokens (s : Bytes) : List Bytes := tokensFrom s.length s

theorem stringTail_length_le (s : Bytes) : (stringTail s).length ≤ s.length := by
  fun_induction stringTail s with
  | case1 => exact Nat.le_refl _
  | case2 => exact Nat.zero_le _
  | case3 => exact Nat.le_succ _
  | case4 d s _ ih =>
    rw [List.length_cons, List.length_cons]
    omega
  | case5 c d s _ _ ih => exact Nat.le_trans ih (Nat.le_succ _)

theorem tokenTail_length_le (c : UInt8) (t : Bytes) : (tokenTail c t).length ≤ t.length := by
  unfold tokenTail
  split_ifs
  · exact stringTail_length_le t
  · exact (List.dropWhile_suffix _).length_le
  · exact Nat.le_refl _

theorem tokensFrom_fuel {fuel : Nat} (h : s.length ≤ fuel) : tokensFrom fuel s = tokens s := by
  induction hn : s.length using Nat.strongRecOn generalizing s fuel with
  | _ n ih =>
    unfold tokens
    cases hws : jsonWs s with
    | nil => cases fuel <;> cases hlen : s.length <;> simp [tokensFrom, hws]
    | cons c t =>
      have hlt := length_lt_of_jsonWs hws
      have htail := tokenTail_length_le c t
      obtain ⟨fuel, rfl⟩ : ∃ k, fuel = k + 1 := ⟨fuel - 1, by omega⟩
      obtain ⟨m, hm⟩ : ∃ m, s.length = m + 1 := ⟨s.length - 1, by omega⟩
      rw [hm, tokensFrom, tokensFrom, hws]
      dsimp only
      rw [ih _ (by omega) (show (tokenTail c t).length ≤ fuel by omega) rfl,
        ih _ (by omega) (show (tokenTail c t).length ≤ m by omega) rfl]

theorem tokens_nil (hws : jsonWs s = []) : tokens s = [] := by
  unfold tokens
  cases s.length <;> simp [tokensFrom, hws]

theorem tokens_cons (hws : jsonWs s = c :: t) :
    tokens s = (c :: t).take (t.length + 1 - (tokenTail c t).length) :: tokens (tokenTail c t) := by
  have hlt := length_lt_of_jsonWs hws
  have htail := tokenTail_length_le c t
  obtain ⟨m, hm⟩ : ∃ m, s.length = m + 1 := ⟨s.length - 1, by omega⟩
  rw [tokens, hm, tokensFrom, hws]
  dsimp only
  rw [tokensFrom_fuel (by omega)]

/-- A token, in front of what follows it. -/
theorem tokens_token (hc : isspace c = false) (htail : tokenTail c (t ++ e) = e) :
    tokens (c :: (t ++ e)) = (c :: t) :: tokens e := by
  rw [tokens_cons (jsonWs_cons hc _), htail, List.length_append, ← List.cons_append]
  congr 1
  exact List.take_left' (by rw [List.length_cons]; omega)

theorem tokens_of_jsonWs {s' : Bytes} (h : jsonWs s = jsonWs s') : tokens s = tokens s' := by
  cases hws : jsonWs s' with
  | nil => rw [tokens_nil hws, tokens_nil (h.trans hws)]
  | cons c t => rw [tokens_cons hws, tokens_cons (h.trans hws)]

/-! ### Texts and their tokens -/

/-- `c` holds the tokens `toks` and is minified to them, in front of any text with `p`. -/
def Compacts (p : Bytes → Prop) (c : Bytes) (toks : List Bytes) : Prop :=
  ∀ e, p e → minifyFrom false false (c ++ e) = toks.flatten ++ minifyFrom false false e ∧
    tokens (c ++ e) = toks ++ tokens e ∧ tokens (toks.flatten ++ e) = toks ++ tokens e

/-- A text that does not continue a word. -/
def NotWord (e : Bytes) : Prop := ∀ x ∈ e.head?, wordByte x = false

/-- Any text. -/
def AnyText (_ : Bytes) : Prop := True

variable {p q : Bytes → Prop} {c₁ c₂ : Bytes} {toks₁ toks₂ : List Bytes}

theorem Compacts.append (h₁ : Compacts q c₁ toks₁) (h₂ : Compacts p c₂ toks₂)
    (hq : ∀ e, p e → q (c₂ ++ e) ∧ q (toks₂.flatten ++ e)) : Compacts p (c₁ ++ c₂) (toks₁ ++ toks₂) := by
  intro e he
  obtain ⟨hmin₂, htok₂, hflat₂⟩ := h₂ e he
  obtain ⟨hmin₁, htok₁, -⟩ := h₁ (c₂ ++ e) (hq e he).1
  obtain ⟨-, -, hflat₁⟩ := h₁ (toks₂.flatten ++ e) (hq e he).2
  refine ⟨?_, ?_, ?_⟩
  · rw [List.append_assoc, hmin₁, hmin₂, List.flatten_append, List.append_assoc]
  · rw [List.append_assoc, htok₁, htok₂, List.append_assoc]
  · rw [List.flatten_append, List.append_assoc, hflat₁, hflat₂, List.append_assoc]

/-- Behind a token that ends by itself. -/
theorem Compacts.append_any (h₁ : Compacts AnyText c₁ toks₁) (h₂ : Compacts p c₂ toks₂) :
    Compacts p (c₁ ++ c₂) (toks₁ ++ toks₂) := h₁.append h₂ fun _ _ => ⟨trivial, trivial⟩

theorem compacts_space {w : Bytes} (hw : ∀ c ∈ w, isspace c = true) : Compacts AnyText w [] := by
  have hmin : ∀ e, minifyFrom false false (w ++ e) = minifyFrom false false e := by
    intro e
    induction w with
    | nil => rfl
    | cons c w ih =>
      have hc := hw c List.mem_cons_self
      have hquote : c ≠ '"'.toUInt8 := by
        rintro rfl
        exact absurd hc (by decide)
      rw [List.cons_append, minifyFrom, if_neg (by decide), if_neg hquote, if_pos hc]
      exact ih fun d hd => hw d (List.mem_cons_of_mem c hd)
  refine fun e _ => ⟨hmin e, ?_, rfl⟩
  exact tokens_of_jsonWs (List.dropWhile_append_of_pos hw)

/-- A bracket, a comma or a colon. -/
theorem compacts_single (hspace : isspace c = false) (hquote : c ≠ '"'.toUInt8) (hword : wordByte c = false) :
    Compacts AnyText [c] [[c]] := by
  have htok : ∀ e, tokens ([c] ++ e) = [[c]] ++ tokens e := by
    intro e
    refine tokens_token (t := []) hspace ?_
    rw [tokenTail, if_neg hquote, hword]
    rfl
  refine fun e _ => ⟨?_, htok e, htok e⟩
  rw [List.singleton_append, minifyFrom, if_neg (by decide), if_neg hquote, hspace]
  rfl

theorem minifyFrom_word {a : Bytes} (ha : ∀ c ∈ a, wordByte c = true) (e : Bytes) :
    minifyFrom false false (a ++ e) = a ++ minifyFrom false false e := by
  have hne : ∀ c, wordByte c = true → c ≠ '"'.toUInt8 := Lib.forall_uint8 (by decide +kernel)
  induction a with
  | nil => rfl
  | cons c a ih =>
    have hc := ha c List.mem_cons_self
    rw [List.cons_append, minifyFrom, if_neg (by decide), if_neg (hne c hc), isspace_of_wordByte c hc,
      if_neg (by decide), ih fun d hd => ha d (List.mem_cons_of_mem c hd)]
    rfl

theorem compacts_word {a : Bytes} (hne : a ≠ []) (ha : ∀ c ∈ a, wordByte c = true) : Compacts NotWord a [a] := by
  obtain ⟨c, t, rfl⟩ := List.exists_cons_of_ne_nil hne
  have hc := ha c List.mem_cons_self
  have hquote : ∀ c, wordByte c = true → c ≠ '"'.toUInt8 := Lib.forall_uint8 (by decide +kernel)
  intro e he
  have htok : tokens (c :: t ++ e) = [c :: t] ++ tokens e := by
    refine tokens_token (isspace_of_wordByte c hc) ?_
    rw [tokenTail, if_neg (hquote c hc), hc, if_pos rfl]
    exact dropWhile_append_stop (fun d hd => ha d (List.mem_cons_of_mem c hd)) he
  have hflatten : [c :: t].flatten = c :: t := List.flatten_singleton
  rw [hflatten]
  exact ⟨minifyFrom_word ha e, htok, htok⟩

theorem StringBody.minify (hb : StringBody b) (e : Bytes) :
    minifyFrom true false (b ++ e) = b ++ minifyFrom false false e := by
  induction hb with
  | close => rfl
  | @char c b hquote hslash hb ih =>
    rw [List.cons_append, minifyFrom, if_pos rfl, if_neg (by decide), if_neg hslash, decide_eq_true hquote, ih]
    rfl
  | @escape x b hb ih =>
    show minifyFrom true false ('\\'.toUInt8 :: x :: (b ++ e)) = _
    rw [minifyFrom, if_pos rfl, if_neg (by decide), if_pos rfl, minifyFrom, if_pos rfl, if_pos rfl, ih]
    rfl

theorem StringBody.tail (hb : StringBody b) (e : Bytes) : stringTail (b ++ e) = e := by
  have hlen : ∀ {b}, StringBody b → ∃ x y, b = x :: y := by
    intro b hb
    cases hb with
    | close => exact ⟨_, _, rfl⟩
    | char => exact ⟨_, _, rfl⟩
    | escape => exact ⟨_, _, rfl⟩
  induction hb with
  | close => cases e <;> rfl
  | @char c b hquote hslash hb ih =>
    obtain ⟨x, y, rfl⟩ := hlen hb
    show stringTail (c :: x :: (y ++ e)) = e
    rw [stringTail, if_neg hquote, if_neg hslash]
    exact ih
  | @escape x b hb ih =>
    show stringTail ('\\'.toUInt8 :: x :: (b ++ e)) = e
    rw [stringTail, if_neg (by decide), if_pos rfl]
    exact ih

theorem compacts_string (hb : StringBody b) : Compacts AnyText ('"'.toUInt8 :: b) ['"'.toUInt8 :: b] := by
  have htok : ∀ e, tokens ('"'.toUInt8 :: b ++ e) = ['"'.toUInt8 :: b] ++ tokens e := by
    intro e
    refine tokens_token (by decide) ?_
    rw [tokenTail, if_pos rfl]
    exact hb.tail e
  have hflatten : ['"'.toUInt8 :: b].flatten = '"'.toUInt8 :: b := List.flatten_singleton
  intro e _
  rw [hflatten]
  refine ⟨?_, htok e, htok e⟩
  rw [List.cons_append, minifyFrom, if_neg (by decide), if_pos rfl, hb.minify]
  rfl

/-! ### What is read -/

theorem notWord_space {w : Bytes} (hw : ∀ c ∈ w, isspace c = true) (hc : wordByte c = false) (e : Bytes) :
    NotWord (w ++ c :: e) := by
  have hspace : ∀ c, isspace c = true → wordByte c = false := Lib.forall_uint8 (by decide +kernel)
  intro x hx
  cases w with
  | nil =>
    rw [← Option.some.inj hx]
    exact hc
  | cons d w =>
    rw [← Option.some.inj hx]
    exact hspace d (hw d List.mem_cons_self)

/-- The white space in front of a text. -/
theorem jsonWs_split (h : jsonWs s = t) : ∃ w, s = w ++ t ∧ ∀ c ∈ w, isspace c = true :=
  ⟨s.takeWhile isspace, by rw [← h]; exact List.takeWhile_append_dropWhile.symm,
    fun _ hc => List.mem_takeWhile_imp hc⟩

/-- White space and a token that ends by itself. -/
theorem compacts_space_token (tok : Bytes) (h : jsonWs s = tok ++ t) (htok : Compacts AnyText tok [tok]) :
    ∃ w, s = (w ++ tok) ++ t ∧ (∀ c ∈ w, isspace c = true) ∧ Compacts AnyText (w ++ tok) [tok] := by
  obtain ⟨w, rfl, hw⟩ := jsonWs_split h
  exact ⟨w, by rw [List.append_assoc], hw, (compacts_space hw).append_any htok⟩

theorem compacts_bracket : ∀ obj, Compacts AnyText [opening obj] [[opening obj]] ∧
    Compacts AnyText [closing obj] [[closing obj]] := by
  have h : ∀ obj, (isspace (opening obj) = false ∧ opening obj ≠ '"'.toUInt8 ∧ wordByte (opening obj) = false) ∧
      isspace (closing obj) = false ∧ closing obj ≠ '"'.toUInt8 ∧ wordByte (closing obj) = false := by decide
  intro obj
  obtain ⟨⟨h₁, h₂, h₃⟩, h₄, h₅, h₆⟩ := h obj
  exact ⟨compacts_single h₁ h₂ h₃, compacts_single h₄ h₅ h₆⟩

/-- What follows a part. -/
def Behind : Part → Bytes → Prop
  | .value   => NotWord
  | .items _ => AnyText

theorem ReadsKey.compacts {obj : Bool} {s s₁ : Bytes} {key : List Bytes} (h : ReadsKey obj s key s₁) :
    ∃ c, s = c ++ s₁ ∧ Compacts AnyText c key := by
  cases h with
  | element => exact ⟨[], rfl, compacts_space fun _ hc => nomatch hc⟩
  | @member s b s₁ s₂ hb hws hcolon =>
    obtain ⟨w, hs, -, hstring⟩ := compacts_space_token ('"'.toUInt8 :: b) hws (compacts_string hb.1)
    obtain ⟨w', hs₁, -, hcolon'⟩ :=
      compacts_space_token [':'.toUInt8] hcolon (compacts_single (by decide) (by decide) (by decide))
    exact ⟨_, by rw [hs, hs₁, ← List.append_assoc], hstring.append_any hcolon'⟩

/-- A value, and behind white space a token that ends by itself. -/
theorem Compacts.append_token {w : Bytes} {d : UInt8} (h : Compacts NotWord c₁ toks₁) (hw : ∀ c ∈ w, isspace c = true)
    (hd : wordByte d = false) (htok : Compacts AnyText (w ++ [d]) [[d]]) :
    Compacts AnyText (c₁ ++ (w ++ [d])) (toks₁ ++ [[d]]) := by
  refine h.append htok fun e _ => ⟨?_, ?_⟩
  · rw [List.append_assoc]
    exact notWord_space hw hd e
  · rw [List.flatten_singleton]
    exact @notWord_space d [] (fun _ hc => nomatch hc) hd e

/-- **What is read** is minified to its tokens. -/
theorem Reads.compacts {part : Part} {n : Nat} (h : Reads part n s toks r) :
    ∃ c, s = c ++ r ∧ Compacts (Behind part) c toks := by
  have hclosing : ∀ obj, wordByte (closing obj) = false := by decide
  induction h with
  | @word n s a r ha hws _ =>
    obtain ⟨w, rfl, hw⟩ := jsonWs_split hws
    exact ⟨w ++ a, by rw [List.append_assoc], (compacts_space hw).append_any (compacts_word ha.1 ha.2.1)⟩
  | @string n s b r hb hws =>
    obtain ⟨w, hs, -, hstring⟩ := compacts_space_token ('"'.toUInt8 :: b) hws (compacts_string hb.1)
    exact ⟨_, hs, fun e _ => hstring e trivial⟩
  | @empty n s s₁ r obj hws hend =>
    obtain ⟨w, hs, -, hopen⟩ := compacts_space_token [opening obj] hws (compacts_bracket obj).1
    obtain ⟨w', hs₁, -, hclose⟩ := compacts_space_token [closing obj] hend (compacts_bracket obj).2
    have hall := hopen.append_any hclose
    exact ⟨_, by rw [hs, hs₁, ← List.append_assoc], fun e _ => hall e trivial⟩
  | @items n s s₁ r toks obj hws _ ih =>
    obtain ⟨w, hs, -, hopen⟩ := compacts_space_token [opening obj] hws (compacts_bracket obj).1
    obtain ⟨w', hs₁, hw'⟩ := @jsonWs_split s₁ _ rfl
    obtain ⟨c, hc, hitems⟩ := ih
    have hall := hopen.append_any ((compacts_space hw').append_any hitems)
    exact ⟨_, by rw [hs, hs₁, hc]; simp, fun e _ => hall e trivial⟩
  | @last obj n s s₁ s₂ r key toks hkey _ hend ih =>
    obtain ⟨k, hk, hkey⟩ := hkey.compacts
    obtain ⟨c, hc, hvalue⟩ := ih
    obtain ⟨w, hs₂, hw, hclose⟩ := compacts_space_token [closing obj] hend (compacts_bracket obj).2
    exact ⟨_, by rw [hk, hc, hs₂]; simp, hkey.append_any (hvalue.append_token hw (hclosing obj) hclose)⟩
  | @more obj n s s₁ s₂ s₃ r key toks rest hkey _ hcomma _ ih ih' =>
    obtain ⟨k, hk, hkey⟩ := hkey.compacts
    obtain ⟨c, hc, hvalue⟩ := ih
    obtain ⟨c', hc', hrest⟩ := ih'
    obtain ⟨w, hs₂, hw, hcomma'⟩ :=
      compacts_space_token [','.toUInt8] hcomma (compacts_single (by decide) (by decide) (by decide))
    have hall := hkey.append_any ((hvalue.append_token hw (by decide) hcomma').append_any hrest)
    refine ⟨k ++ ((c ++ (w ++ [','.toUInt8])) ++ c'), ?_, ?_⟩
    · rw [hk, hc, hs₂, hc']
      simp
    · simpa using hall

theorem ReadsKey.compact {obj : Bool} {s s₁ : Bytes} {key : List Bytes} (h : ReadsKey obj s key s₁) (t : Bytes) :
    ReadsKey obj (key.flatten ++ t) key t := by
  cases h with
  | element => exact .element
  | @member s b s₁ s₂ hb hws hcolon =>
    have hcolon' : jsonWs (':'.toUInt8 :: t) = ':'.toUInt8 :: t := jsonWs_cons (by decide) _
    refine .member hb ?_ hcolon'
    have hflatten : ['"'.toUInt8 :: b, [':'.toUInt8]].flatten ++ t = '"'.toUInt8 :: (b ++ ':'.toUInt8 :: t) := by simp
    rw [hflatten]
    exact jsonWs_cons (by decide) _

/-- What may follow a part when its tokens are read again. -/
def Follows : Part → Bytes → Prop
  | .value   => Delimited
  | .items _ => AnyText

/-- **The tokens alone** are read again. -/
theorem Reads.compact {part : Part} {n : Nat} (h : Reads part n s toks r) {r' : Bytes} (hr' : Follows part r') :
    Reads part n (toks.flatten ++ r') toks r' := by
  have hopening : ∀ obj, isspace (opening obj) = false ∧ isspace (closing obj) = false ∧ goesOn (closing obj) = false := by
    decide
  induction h generalizing r' with
  | @word n s a r ha hws _ =>
    rw [List.flatten_singleton]
    refine .word ha ?_ (ha.2.2 r' hr')
    obtain ⟨c, t, rfl⟩ := List.exists_cons_of_ne_nil ha.1
    exact jsonWs_cons (isspace_of_wordByte c (ha.2.1 c List.mem_cons_self)) _
  | string hb hws =>
    rw [List.flatten_singleton]
    exact .string hb (jsonWs_cons (by decide) _)
  | empty obj hws hend =>
    exact .empty obj (jsonWs_cons (hopening obj).1 _) (jsonWs_cons (hopening obj).2.1 r')
  | @items n s s₁ r toks obj hws _ ih =>
    have hflatten : ([opening obj] :: toks).flatten ++ r' = opening obj :: (toks.flatten ++ r') := by simp
    rw [hflatten]
    exact .items (jsonWs_cons (hopening obj).1 _) ((ih trivial).of_jsonWs (jsonWs_jsonWs _))
  | @last obj n s s₁ s₂ r key toks hkey _ hend ih =>
    have hflatten : (key ++ (toks ++ [[closing obj]])).flatten ++ r' =
        key.flatten ++ (toks.flatten ++ closing obj :: r') := by simp
    have hdelimited : Delimited (closing obj :: r') :=
      @delimited_space [] _ (fun _ hc => nomatch hc) (hopening obj).2.2 r'
    rw [hflatten]
    exact .last (hkey.compact _) (ih hdelimited) (jsonWs_cons (hopening obj).2.1 _)
  | @more obj n s s₁ s₂ s₃ r key toks rest hkey _ hcomma _ ih ih' =>
    have hflatten : (key ++ (toks ++ [','.toUInt8] :: rest)).flatten ++ r' =
        key.flatten ++ (toks.flatten ++ ','.toUInt8 :: (rest.flatten ++ r')) := by simp
    have hdelimited : Delimited (','.toUInt8 :: (rest.flatten ++ r')) :=
      @delimited_space [] _ (fun _ hc => nomatch hc) (by decide) _
    rw [hflatten]
    exact .more (hkey.compact _) (ih hdelimited) (jsonWs_cons (by decide) _) (ih' trivial)

/-! ### Minifying -/

theorem jsonMinifyRawValue_eq (h : Reads .value JSON_MAX_NESTING s toks r) :
    jsonMinifyRawValue s = toks.flatten ∧
      ∃ c, jsonWs s = c ++ r ∧ tokens c = toks ∧ tokens toks.flatten = toks := by
  have hws := h.of_jsonWs (jsonWs_jsonWs s)
  have hskip := (jsonSkipValue_eq_some_iff).2 ⟨toks, hws⟩
  obtain ⟨c, hc, hcompacts⟩ := hws.compacts
  have hnil : NotWord [] := fun _ hx => nomatch hx
  obtain ⟨hmin, htok, hflat⟩ := hcompacts [] hnil
  have hempty : tokens [] = [] := rfl
  rw [List.append_nil, hempty, List.append_nil] at htok hflat
  rw [List.append_nil, minifyFrom, List.append_nil] at hmin
  refine ⟨?_, c, hc, htok, hflat⟩
  have htake : (jsonWs s).take ((jsonWs s).length - r.length) = c := by
    rw [hc, List.length_append, Nat.add_sub_cancel, List.take_left]
  unfold jsonMinifyRawValue jsonRawValue
  dsimp only
  rw [hskip, Option.map_some]
  dsimp only
  rw [htake, hmin]

example : jsonMinifyRawValue (lit "\x7b \"a \\\"\" : [1 , -0.5e3,\t\"\" ] \x7d x") =
    lit "\x7b\"a \\\"\":[1,-0.5e3,\"\"]\x7d" := by decide +kernel

end DS4.Server
