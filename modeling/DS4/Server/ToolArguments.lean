import DS4.Server.JsonMinify
import DS4.Server.JsonStrings
import DS4.Server.ToolBlock

namespace DS4.Server

/-!
# Server — the arguments of a call are read again

The arguments of a call are a text; the response, the history and the renderer read that text again with
`json_args_parse`. A value that is no string is put into it as the model wrote it.

* `Compact` — a JSON value without white space between its tokens.
* `compact_jsonOrNull_iff` — which values of a block are; `reread` — what such a value is read as.
* `jsonArgsParse_iff` — **all arguments are read again** just when every value is one.
* `appendJsonObjectOrEmpty_eq` — what is sent to the client then.
-/

open Lib.Json (Part opening closing)

variable {a : JsonArg} {as : List JsonArg} {v s e r raw w : Bytes} {toks : List Bytes}

/-! ### Values -/

/-- A JSON value without white space between its tokens, and nothing behind it. -/
def Compact (v : Bytes) : Prop := jsonSkipValue v = some [] ∧ jsonMinifyRawValue v = v

instance (v : Bytes) : Decidable (Compact v) := inferInstanceAs (Decidable (_ ∧ _))

theorem compact_iff : Compact v ↔ ∃ toks, Reads .value JSON_MAX_NESTING v toks [] ∧ toks.flatten = v := by
  unfold Compact
  rw [jsonSkipValue_eq_some_iff]
  constructor
  · rintro ⟨⟨toks, htoks⟩, hmin⟩
    exact ⟨toks, htoks, (jsonMinifyRawValue_eq htoks).1.symm.trans hmin⟩
  · rintro ⟨toks, htoks, hflat⟩
    exact ⟨⟨toks, htoks⟩, (jsonMinifyRawValue_eq htoks).1.trans hflat⟩

/-- The tokens of a value are a compact value. -/
theorem compact_tokens {r : Bytes} (h : Reads .value JSON_MAX_NESTING s toks r) : Compact toks.flatten := by
  have hagain : Reads .value JSON_MAX_NESTING (toks.flatten ++ []) toks [] := h.compact delimited_nil
  rw [List.append_nil] at hagain
  exact compact_iff.mpr ⟨toks, hagain, rfl⟩

/-- Where no value starts, minifying leaves the text. -/
theorem jsonMinifyRawValue_none (h : jsonSkipValue s = none) : jsonMinifyRawValue s = s := by
  have hnone : jsonSkipValue (jsonWs s) = none := by
    by_contra hsome
    obtain ⟨r, hr⟩ := Option.ne_none_iff_exists'.mp hsome
    obtain ⟨toks, htoks⟩ := jsonSkipValue_eq_some_iff.mp hr
    have hread := jsonSkipValue_eq_some_iff.mpr ⟨toks, htoks.of_jsonWs (jsonWs_jsonWs s).symm⟩
    rw [h] at hread
    exact absurd hread nofun
  unfold jsonMinifyRawValue jsonRawValue
  dsimp only
  rw [hnone]
  rfl

/-- **The values of a block** that are JSON: the empty text, and a text that starts with a value. -/
theorem compact_jsonOrNull_iff : Compact (jsonOrNull raw) ↔ raw = [] ∨ jsonSkipValue raw ≠ none := by
  have hempty : jsonSkipValue [] = none := by decide
  cases hskip : jsonSkipValue raw with
  | none =>
    have hmin := jsonMinifyRawValue_none hskip
    unfold jsonOrNull
    rw [hmin]
    by_cases hnil : raw = []
    · rw [if_pos hnil]
      exact iff_of_true (by decide +kernel) (Or.inl hnil)
    · rw [if_neg hnil]
      refine iff_of_false (fun h => ?_) (by simp [hnil])
      exact absurd (hskip.symm.trans h.1) nofun
  | some r =>
    obtain ⟨toks, htoks⟩ := jsonSkipValue_eq_some_iff.mp hskip
    have hcompact := compact_tokens htoks
    rw [← (jsonMinifyRawValue_eq htoks).1] at hcompact
    have hne : jsonMinifyRawValue raw ≠ [] := by
      intro hnil
      rw [hnil] at hcompact
      exact absurd (hempty.symm.trans hcompact.1) nofun
    unfold jsonOrNull
    rw [if_neg hne]
    exact iff_of_true hcompact (Or.inr nofun)

/-- What a value is read as: a JSON string is decoded. -/
def reread (a : JsonArg) : JsonArg :=
  if a.isString then a
  else
    match jsonString a.value with
    | some (text, []) => ⟨a.key, text, true⟩
    | _               => a

/-- A compact value starts with its own first byte, and ends where the next one does not go on. -/
theorem Compact.read (h : Compact v) (he : Delimited e) :
    ∃ c t, v = c :: t ∧ isspace c = false ∧
      if c = '"'.toUInt8 then ∃ text, jsonString v = some (text, []) ∧ jsonString (v ++ e) = some (text, e)
      else jsonRawValue (v ++ e) = some (v, e) := by
  obtain ⟨toks, htoks, rfl⟩ := compact_iff.mp h
  have hagain : Reads .value JSON_MAX_NESTING (toks.flatten ++ e) toks e := htoks.compact he
  have hopening : ∀ obj, isspace (opening obj) = false ∧ opening obj ≠ '"'.toUInt8 := by decide
  have hquote : isspace '"'.toUInt8 = false := by decide
  -- the first byte
  have hhead : ∃ c t, toks.flatten = c :: t ∧ isspace c = false ∧
      (c = '"'.toUInt8 → ∃ b, Literal b ∧ toks.flatten = '"'.toUInt8 :: b) := by
    cases htoks with
    | @word _ _ a _ ha hws hskip =>
      obtain ⟨c, t, rfl⟩ := List.exists_cons_of_ne_nil ha.1
      have hc := ha.2.1 c List.mem_cons_self
      refine ⟨c, t, by simp, isspace_of_wordByte c hc, fun hq => ?_⟩
      exact absurd hq ((word_space_bytes c).1 hc).2.1
    | @string _ _ b _ hb hws => exact ⟨_, b, by simp, hquote, fun _ => ⟨b, hb, by simp⟩⟩
    | empty obj hws hend => exact ⟨opening obj, [closing obj], by simp, (hopening obj).1, fun hq => absurd hq (hopening obj).2⟩
    | @items _ _ _ _ toks obj hws hitems =>
      exact ⟨opening obj, toks.flatten, by simp, (hopening obj).1, fun hq => absurd hq (hopening obj).2⟩
  obtain ⟨c, t, hct, hspace, hstring⟩ := hhead
  refine ⟨c, t, hct, hspace, ?_⟩
  have hws : ∀ u, jsonWs (toks.flatten ++ u) = toks.flatten ++ u := fun u => by
    rw [hct, List.cons_append]
    exact jsonWs_cons hspace _
  split
  next hq =>
    obtain ⟨b, ⟨-, text, hread⟩, hb⟩ := hstring hq
    refine ⟨text, hread _ _ ?_, hread _ _ ?_⟩
    · have h := hws []
      rw [List.append_nil] at h
      rw [h, hb, List.append_nil]
    · rw [hws e, hb]
      rfl
  next hq =>
    have hskip := jsonSkipValue_eq_some_iff.mpr ⟨toks, hagain⟩
    unfold jsonRawValue
    dsimp only
    rw [hws e, hskip, Option.map_some, List.length_append, Nat.add_sub_cancel, List.take_left]

/-! ### A value on its own -/

/-- A token behind white space is one in front of any text. -/
theorem jsonWs_token {tok : Bytes} (htok : tok ≠ []) (h : jsonWs s = tok ++ r) :
    ∃ u, s = u ++ r ∧ ∀ r', jsonWs (u ++ r') = tok ++ r' := by
  obtain ⟨c, t, rfl⟩ := List.exists_cons_of_ne_nil htok
  have hc : isspace c = false := isspace_of_jsonWs h
  obtain ⟨w, rfl, hw⟩ := jsonWs_split h
  refine ⟨w ++ c :: t, by simp, fun r' => ?_⟩
  have hspaces : jsonWs (w ++ (c :: t ++ r')) = jsonWs (c :: t ++ r') := List.dropWhile_append_of_pos hw
  rw [List.append_assoc, hspaces]
  exact jsonWs_cons hc _

theorem ReadsKey.cut {obj : Bool} {key : List Bytes} (h : ReadsKey obj s key r) :
    ∃ u, s = u ++ r ∧ ∀ r', ReadsKey obj (u ++ r') key r' := by
  cases h with
  | element => exact ⟨[], rfl, fun r' => .element⟩
  | @member _ b s₁ _ hb hws hcolon =>
    obtain ⟨u, rfl, hu⟩ := jsonWs_token (List.cons_ne_nil '"'.toUInt8 b) hws
    obtain ⟨u', rfl, hu'⟩ := jsonWs_token (List.cons_ne_nil ':'.toUInt8 []) hcolon
    refine ⟨u ++ u', (List.append_assoc ..).symm, fun r' => .member hb ?_ (hu' r')⟩
    rw [List.append_assoc]
    exact hu _

/-- What is read is a text of its own: it is read in front of anything that may follow it. -/
theorem Reads.cut {part : Part} {n : Nat} (h : Reads part n s toks r) :
    ∃ u, s = u ++ r ∧ ∀ r', Follows part r' → Reads part n (u ++ r') toks r' := by
  have hgoesOn : ∀ obj, goesOn (closing obj) = false := by decide
  have hspace : ∀ c, isspace c = true → goesOn c = false := Lib.forall_uint8 (by decide +kernel)
  -- white space and a bracket or a comma end a number
  have hdelimited : ∀ {u : Bytes} {d : UInt8}, goesOn d = false → (∀ r', jsonWs (u ++ r') = d :: r') →
      ∀ r', Delimited (u ++ r') := by
    intro u d hd hu r' c hc
    obtain ⟨w, hw, hspaces⟩ := jsonWs_split (hu r')
    rw [hw] at hc
    cases w with
    | nil =>
      rw [← Option.some.inj hc]
      exact hd
    | cons x w =>
      rw [← Option.some.inj hc]
      exact hspace x (hspaces x List.mem_cons_self)
  induction h with
  | @word n s a r ha hws _ =>
    obtain ⟨u, rfl, hu⟩ := jsonWs_token ha.1 hws
    exact ⟨u, rfl, fun r' hr' => .word ha (hu r') (ha.2.2 r' hr')⟩
  | @string n s b r hb hws =>
    obtain ⟨u, rfl, hu⟩ := jsonWs_token (List.cons_ne_nil '"'.toUInt8 b) hws
    exact ⟨u, rfl, fun r' _ => .string hb (hu r')⟩
  | @empty n s s₁ r obj hws hend =>
    obtain ⟨u, rfl, hu⟩ := jsonWs_token (List.cons_ne_nil (opening obj) []) hws
    obtain ⟨u', rfl, hu'⟩ := jsonWs_token (List.cons_ne_nil (closing obj) []) hend
    refine ⟨u ++ u', (List.append_assoc ..).symm, fun r' _ => .empty obj ?_ (hu' r')⟩
    rw [List.append_assoc]
    exact hu _
  | @items n s s₁ r toks obj hws _ ih =>
    obtain ⟨u, rfl, hu⟩ := jsonWs_token (List.cons_ne_nil (opening obj) []) hws
    obtain ⟨w, hs₁, hw⟩ := @jsonWs_split s₁ _ rfl
    obtain ⟨c, hc, hitems⟩ := ih
    refine ⟨u ++ (w ++ c), by rw [hs₁, hc]; simp, fun r' _ => ?_⟩
    have hrest : Reads (.items obj) n (jsonWs (w ++ (c ++ r'))) toks r' := by
      refine (hitems r' trivial).of_jsonWs ?_
      rw [jsonWs_jsonWs]
      exact List.dropWhile_append_of_pos hw
    refine .items ?_ hrest
    rw [List.append_assoc, List.append_assoc]
    exact hu _
  | @last obj n s s₁ s₂ r key toks hkey _ hend ih =>
    obtain ⟨k, rfl, hk⟩ := hkey.cut
    obtain ⟨c, rfl, hvalue⟩ := ih
    obtain ⟨u, rfl, hu⟩ := jsonWs_token (List.cons_ne_nil (closing obj) []) hend
    refine ⟨k ++ (c ++ u), by simp, fun r' _ => ?_⟩
    rw [List.append_assoc, List.append_assoc]
    exact .last (hk _) (hvalue _ (hdelimited (hgoesOn obj) hu r')) (hu r')
  | @more obj n s s₁ s₂ s₃ r key toks rest hkey _ hcomma _ ih ih' =>
    obtain ⟨k, rfl, hk⟩ := hkey.cut
    obtain ⟨c, rfl, hvalue⟩ := ih
    obtain ⟨c', rfl, hrest⟩ := ih'
    obtain ⟨u, rfl, hu⟩ := jsonWs_token (List.cons_ne_nil ','.toUInt8 []) hcomma
    refine ⟨k ++ (c ++ (u ++ c')), by simp, fun r' _ => ?_⟩
    rw [List.append_assoc, List.append_assoc, List.append_assoc]
    exact .more (hk _) (hvalue _ (hdelimited (by decide) hu _)) (hu _) (hrest r' trivial)

/-! ### Members of an object -/

/-- An argument that can be written into an object and read again. -/
structure Written (a : JsonArg) : Prop where
  key : 0 ∉ a.key
  value : 0 ∉ a.value
  json : a.isString = false → Compact a.value

/-- A member, with the white space `w` behind its colon. -/
def memberText (w : Bytes) (a : JsonArg) : Bytes :=
  jsonEscape a.key ++ ':'.toUInt8 :: (w ++ if a.isString then jsonEscape a.value else a.value)

/-- What follows a member, with the white space `w` behind a comma. -/
def restText (w : Bytes) (as : List JsonArg) : Bytes :=
  (as.flatMap fun a => ','.toUInt8 :: (w ++ memberText w a)) ++ ['\x7d'.toUInt8]

/-- An object behind its bracket. -/
def membersText (w : Bytes) : List JsonArg → Bytes
  | []      => ['\x7d'.toUInt8]
  | a :: as => memberText w a ++ restText w as

theorem restText_cons (w : Bytes) (a : JsonArg) (as : List JsonArg) :
    restText w (a :: as) = ','.toUInt8 :: (w ++ membersText w (a :: as)) := by
  unfold membersText restText
  rw [List.flatMap_cons]
  simp only [List.append_assoc, List.cons_append]

theorem jsonEscape_eq (h : 0 ∉ s) : jsonEscape s = '"'.toUInt8 :: (jsonEscapeFragment s ++ ['"'.toUInt8]) := by
  unfold jsonEscape
  rw [cstr_eq_self h]
  rfl

/-- What was escaped is read in front of any text. -/
theorem jsonString_jsonEscape (h : 0 ∉ s) (e : Bytes) :
    ∃ t, jsonEscape s ++ e = '"'.toUInt8 :: t ∧ jsonString (jsonEscape s ++ e) = some (s, e) := by
  have htext : jsonEscape s ++ e = '"'.toUInt8 :: (jsonEscapeFragment s ++ '"'.toUInt8 :: e) := by
    rw [jsonEscape_eq h, List.cons_append, List.append_assoc]
    rfl
  refine ⟨_, htext, ?_⟩
  have hws : jsonWs (jsonEscape s ++ e) = '"'.toUInt8 :: (jsonEscapeFragment s ++ '"'.toUInt8 :: e) := by
    rw [htext]
    exact jsonWs_cons (by decide) _
  unfold jsonString
  rw [hws]
  dsimp only
  rw [if_pos rfl, jsonStringBody_escapeFragment h (by rw [List.length_append]; omega), Option.map_some,
    cstr_eq_self h]

theorem jsonString_none {c : UInt8} {t : Bytes} (hws : jsonWs s = c :: t) (hc : c ≠ '"'.toUInt8) :
    jsonString s = none := by
  unfold jsonString
  rw [hws]
  dsimp only
  rw [if_neg hc]

theorem jsonArgValue_written (ha : Written a) (hw : ∀ c ∈ w, isspace c = true) (he : Delimited e) :
    jsonArgValue a.key (w ++ ((if a.isString then jsonEscape a.value else a.value) ++ e)) = some (reread a, e) := by
  obtain ⟨key, value, isString⟩ := a
  have hspaces : ∀ t, jsonWs (w ++ t) = jsonWs t := fun t => List.dropWhile_append_of_pos hw
  unfold jsonArgValue reread
  rw [hspaces]
  cases isString with
  | true =>
    obtain ⟨t, ht, hread⟩ := jsonString_jsonEscape ha.value e
    dsimp only at ht hread ⊢
    rw [if_pos rfl, ht, jsonWs_cons (by decide), ← ht]
    rw [ht] at hread ⊢
    simp only [if_true, hread, Option.map_some]
  | false =>
    have hcompact := ha.json rfl
    obtain ⟨c, t, hv, hspace, hread⟩ := hcompact.read he
    dsimp only at hv hread hcompact ⊢
    rw [if_neg (by simp), if_neg (by simp), hv, List.cons_append, jsonWs_cons hspace]
    rw [hv, List.cons_append] at hread
    dsimp only
    by_cases hc : c = '"'.toUInt8
    · rw [if_pos hc] at hread ⊢
      obtain ⟨text, halone, hfront⟩ := hread
      rw [hfront, halone]
      rfl
    · rw [if_neg hc] at hread ⊢
      rw [hread, jsonString_none (jsonWs_cons hspace t) hc]
      have hmin := hcompact.2
      rw [hv] at hmin
      rw [Option.map_some, hmin]

theorem jsonArg_memberText (ha : Written a) (hw : ∀ c ∈ w, isspace c = true) (he : Delimited e) :
    jsonArg (memberText w a ++ e) = some (reread a, e) := by
  have hcolon : isspace ':'.toUInt8 = false := by decide
  unfold memberText jsonArg
  rw [List.append_assoc, (jsonString_jsonEscape ha.key _).choose_spec.2]
  dsimp only
  rw [List.cons_append, jsonWs_cons hcolon, List.append_assoc]
  dsimp only
  rw [if_pos rfl]
  exact jsonArgValue_written ha hw he

theorem delimited_restText (w : Bytes) (as : List JsonArg) : Delimited (restText w as) := by
  have hbytes : goesOn ','.toUInt8 = false ∧ goesOn '\x7d'.toUInt8 = false := by decide
  intro c hc
  cases as with
  | nil =>
    obtain rfl := Option.some.inj hc
    exact hbytes.2
  | cons a as =>
    rw [restText_cons] at hc
    obtain rfl := Option.some.inj hc
    exact hbytes.1

/-- The members start with a quotation mark or the bracket that closes. -/
theorem jsonWs_membersText (h : ∀ a ∈ as, Written a) (w : Bytes) :
    ∃ c t, membersText w as = c :: t ∧ isspace c = false ∧ (c = '\x7d'.toUInt8 ↔ as = []) := by
  have hquote : '"'.toUInt8 ≠ '\x7d'.toUInt8 := by decide
  cases as with
  | nil => exact ⟨_, [], rfl, by decide, iff_of_true rfl rfl⟩
  | cons a as =>
    have ha := h a List.mem_cons_self
    obtain ⟨t, ht, -⟩ := jsonString_jsonEscape ha.key
      (':'.toUInt8 :: (w ++ if a.isString then jsonEscape a.value else a.value) ++ restText w as)
    refine ⟨'"'.toUInt8, t, ?_, by decide, iff_of_false hquote (List.cons_ne_nil a as)⟩
    rw [membersText, memberText, List.append_assoc]
    exact ht

/-- **The loop** reads the members. -/
theorem jsonArgsLoop_membersText (h : ∀ a ∈ as, Written a) (hw : ∀ c ∈ w, isspace c = true) {fuel : Nat}
    (hfuel : as.length < fuel) : jsonArgsLoop fuel (membersText w as) = some (as.map reread) := by
  induction as generalizing fuel with
  | nil =>
    obtain ⟨fuel, rfl⟩ : ∃ n, fuel = n + 1 := ⟨fuel - 1, by omega⟩
    rw [membersText, jsonArgsLoop, if_pos rfl]
    rfl
  | cons a as ih =>
    rw [List.length_cons] at hfuel
    obtain ⟨fuel, rfl⟩ : ∃ n, fuel = n + 1 := ⟨fuel - 1, by omega⟩
    obtain ⟨c, t, hct, -, hc⟩ := jsonWs_membersText h w
    have hbracket : c ≠ '\x7d'.toUInt8 := fun heq => absurd (hc.mp heq) (List.cons_ne_nil a as)
    have hrest : ∀ b ∈ as, Written b := fun b hb => h b (List.mem_cons_of_mem a hb)
    have harg := jsonArg_memberText (h a List.mem_cons_self) hw (delimited_restText w as)
    have hcomma : jsonSkipComma (restText w as) = membersText w as := by
      cases as with
      | nil => rfl
      | cons b as =>
        obtain ⟨d, u, hdu, hspace, -⟩ := jsonWs_membersText hrest w
        have hspaces : ∀ t, jsonWs (w ++ t) = jsonWs t := fun t => List.dropWhile_append_of_pos hw
        unfold jsonSkipComma
        rw [restText_cons, jsonWs_cons (by decide)]
        dsimp only
        rw [if_pos rfl, hspaces, hdu, jsonWs_cons hspace]
    rw [hct, jsonArgsLoop, if_neg hbracket, ← hct, membersText, harg]
    dsimp only
    rw [hcomma, ih hrest (by omega), Option.map_some, List.map_cons]

/-! ### What is read from an object -/

theorem zero_notMem_suffix (h : 0 ∉ s) (hr : r <:+ s) : 0 ∉ r := fun h0 => h (hr.subset h0)

theorem jsonWs_suffix (s : Bytes) : jsonWs s <:+ s := List.dropWhile_suffix _

/-- Minifying only leaves bytes out. -/
theorem minifyFrom_sublist (inString escape : Bool) (s : Bytes) : (minifyFrom inString escape s).Sublist s := by
  induction s generalizing inString escape with
  | nil => exact List.Sublist.refl _
  | cons c s ih =>
    rw [minifyFrom]
    split_ifs
    · exact (ih _ _).cons_cons c
    · exact (ih _ _).cons_cons c
    · exact (ih _ _).cons_cons c
    · exact (ih _ _).cons_cons c
    · exact (ih _ _).cons c
    · exact (ih _ _).cons_cons c

theorem jsonMinifyRawValue_sublist (s : Bytes) : (jsonMinifyRawValue s).Sublist s := by
  unfold jsonMinifyRawValue
  split
  next => exact List.Sublist.refl _
  next raw rest h =>
    unfold jsonRawValue at h
    obtain ⟨r, -, heq⟩ := Option.map_eq_some_iff.mp h
    obtain ⟨rfl, rfl⟩ := Prod.mk.inj heq
    exact (minifyFrom_sublist ..).trans ((List.take_sublist ..).trans (jsonWs_suffix s).sublist)

/-- What the reader of arguments gives is written and read again as it is. -/
def Normal (a : JsonArg) : Prop := Written a ∧ reread a = a

theorem jsonString_normal {text : Bytes} (h : jsonString s = some (text, r)) : 0 ∉ text ∧ r <:+ s := by
  obtain ⟨b, hws, -⟩ := jsonString_cut h
  have hsuffix : r <:+ jsonWs s := hws ▸ ⟨'"'.toUInt8 :: b, rfl⟩
  refine ⟨?_, hsuffix.trans (jsonWs_suffix s)⟩
  unfold jsonString at h
  rw [hws] at h
  dsimp only at h
  rw [if_pos rfl] at h
  obtain ⟨x, -, heq⟩ := Option.map_eq_some_iff.mp h
  obtain ⟨rfl, -⟩ := Prod.mk.inj heq
  exact zero_notMem_cstr _

theorem jsonArgValue_normal {key : Bytes} (hkey : 0 ∉ key) (hs : 0 ∉ s) (h : jsonArgValue key s = some (a, r)) :
    Normal a ∧ r <:+ s := by
  unfold jsonArgValue at h
  cases hws : jsonWs s with
  | nil =>
    rw [hws] at h
    exact absurd h nofun
  | cons c t =>
    have hct : c :: t <:+ s := hws ▸ jsonWs_suffix s
    rw [hws] at h
    dsimp only at h
    split at h
    next hc =>
      obtain ⟨⟨text, rest⟩, hread, heq⟩ := Option.map_eq_some_iff.mp h
      obtain ⟨rfl, rfl⟩ := Prod.mk.inj heq
      obtain ⟨htext, hrest⟩ := jsonString_normal hread
      exact ⟨⟨⟨hkey, htext, nofun⟩, rfl⟩, hrest.trans hct⟩
    next hc =>
      obtain ⟨⟨raw, rest⟩, hread, heq⟩ := Option.map_eq_some_iff.mp h
      obtain ⟨rfl, rfl⟩ := Prod.mk.inj heq
      have hspace : isspace c = false := isspace_of_jsonWs hws
      have hself : jsonWs (c :: t) = c :: t := jsonWs_cons hspace t
      unfold jsonRawValue at hread
      dsimp only at hread
      rw [hself] at hread
      obtain ⟨q, hskip, heq⟩ := Option.map_eq_some_iff.mp hread
      obtain ⟨rfl, rfl⟩ := Prod.mk.inj heq
      obtain ⟨toks, htoks⟩ := jsonSkipValue_eq_some_iff.mp hskip
      obtain ⟨u, hu, hcut⟩ := htoks.cut
      have htake : (c :: t).take ((c :: t).length - q.length) = u := by
        rw [hu, List.length_append, Nat.add_sub_cancel, List.take_left]
      have halone : Reads .value JSON_MAX_NESTING u toks [] := by
        have h := hcut [] delimited_nil
        rwa [List.append_nil] at h
      have hne : u ≠ [] := by
        rintro rfl
        obtain ⟨d, v, hd, -⟩ := halone.head
        exact absurd hd nofun
      obtain ⟨d, v, rfl⟩ := List.exists_cons_of_ne_nil hne
      obtain rfl : c = d := (List.cons.inj hu).1
      have hcompact : Compact (jsonMinifyRawValue (c :: v)) := by
        rw [(jsonMinifyRawValue_eq halone).1]
        exact compact_tokens halone
      -- the value starts as the text does
      have hstart : jsonMinifyRawValue (c :: v) = c :: minifyFrom false false v := by
        have hraw : jsonRawValue (c :: v) = some (c :: v, []) := by
          unfold jsonRawValue
          dsimp only
          rw [jsonWs_cons hspace, jsonSkipValue_eq_some_iff.mpr ⟨toks, halone⟩, Option.map_some, List.length_nil,
            Nat.sub_zero, List.take_length]
        unfold jsonMinifyRawValue
        rw [hraw]
        dsimp only
        rw [minifyFrom, if_neg (by decide), if_neg hc, if_neg (by rw [hspace]; decide)]
      have hvalue : 0 ∉ jsonMinifyRawValue (c :: v) := by
        refine fun h0 => zero_notMem_suffix hs hct ?_
        rw [hu]
        exact List.mem_append_left q ((jsonMinifyRawValue_sublist _).subset h0)
      rw [htake]
      refine ⟨⟨⟨hkey, hvalue, fun _ => hcompact⟩, ?_⟩, ?_⟩
      · unfold reread
        dsimp only
        rw [if_neg (by decide), hstart, jsonString_none (jsonWs_cons hspace _) hc]
      · exact List.IsSuffix.trans ⟨c :: v, hu.symm⟩ hct

theorem jsonArg_normal (hs : 0 ∉ s) (h : jsonArg s = some (a, r)) : Normal a ∧ r <:+ s := by
  unfold jsonArg at h
  cases hkey : jsonString s with
  | none =>
    rw [hkey] at h
    exact absurd h nofun
  | some x =>
    obtain ⟨key, afterKey⟩ := x
    obtain ⟨hzero, hafter⟩ := jsonString_normal hkey
    rw [hkey] at h
    dsimp only at h
    cases hws : jsonWs afterKey with
    | nil =>
      rw [hws] at h
      exact absurd h nofun
    | cons colon value =>
      have hvalue : value <:+ s :=
        (List.suffix_cons colon value).trans ((hws ▸ jsonWs_suffix afterKey : colon :: value <:+ afterKey).trans hafter)
      rw [hws] at h
      dsimp only at h
      split at h
      next =>
        obtain ⟨hnormal, hrest⟩ := jsonArgValue_normal hzero (zero_notMem_suffix hs hvalue) h
        exact ⟨hnormal, hrest.trans hvalue⟩
      next => exact absurd h nofun

theorem jsonSkipComma_suffix (s : Bytes) : jsonSkipComma s <:+ s := by
  unfold jsonSkipComma
  split
  next c t hws =>
    have hct : c :: t <:+ s := hws ▸ jsonWs_suffix s
    split
    next => exact (jsonWs_suffix t).trans ((List.suffix_cons c t).trans hct)
    next => exact hct
  next => exact List.nil_suffix

theorem jsonArgsLoop_normal {fuel : Nat} (hs : 0 ∉ s) (h : jsonArgsLoop fuel s = some as) : ∀ a ∈ as, Normal a := by
  induction fuel generalizing s as with
  | zero => exact absurd h nofun
  | succ fuel ih =>
    cases s with
    | nil => exact absurd h nofun
    | cons c t =>
      rw [jsonArgsLoop] at h
      split at h
      next =>
        obtain rfl := Option.some.inj h
        exact nofun
      next =>
        cases harg : jsonArg (c :: t) with
        | none =>
          rw [harg] at h
          exact absurd h nofun
        | some x =>
          obtain ⟨a, rest⟩ := x
          rw [harg] at h
          obtain ⟨as, hrest, rfl⟩ := Option.map_eq_some_iff.mp h
          obtain ⟨hnormal, hsuffix⟩ := jsonArg_normal hs harg
          have hzero : 0 ∉ jsonSkipComma rest := zero_notMem_suffix hs ((jsonSkipComma_suffix rest).trans hsuffix)
          intro b hb
          rcases List.mem_cons.mp hb with rfl | hb
          · exact hnormal
          · exact ih hzero hrest b hb

/-- **Every argument** that is read can be written and read again. -/
theorem jsonArgsParse_normal (h : jsonArgsParse s = some as) : ∀ a ∈ as, Normal a := by
  unfold jsonArgsParse at h
  cases hws : jsonWs (cstr s) with
  | nil =>
    rw [hws] at h
    exact absurd h nofun
  | cons c t =>
    have ht : t <:+ cstr s := (List.suffix_cons c t).trans (hws ▸ jsonWs_suffix (cstr s))
    rw [hws] at h
    dsimp only at h
    split at h
    next => exact jsonArgsLoop_normal (zero_notMem_suffix (zero_notMem_cstr s) ((jsonWs_suffix t).trans ht)) h
    next => exact absurd h nofun

/-! ### Objects -/

/-- `append_json_arg_pair` -/
def appendJsonArgPair (arg : JsonArg) : Bytes :=
  jsonEscape arg.key ++ lit ":" ++ if arg.isString then jsonEscape arg.value else arg.value

/-- `append_json_object_or_empty` -/
def appendJsonObjectOrEmpty (json : Bytes) : Bytes :=
  match jsonArgsParse json with
  | none      => lit "\x7b\x7d"
  | some args => lit "\x7b" ++ (lit ",").intercalate (args.map appendJsonArgPair) ++ lit "\x7d"

/-- `append_json_object_string` -/
def appendJsonObjectString (json : Bytes) : Bytes := jsonEscape (appendJsonObjectOrEmpty json)

/-- An object. -/
def objectOf (w : Bytes) (as : List JsonArg) : Bytes := '\x7b'.toUInt8 :: membersText w as

theorem zero_notMem_jsonEscape (s : Bytes) : 0 ∉ jsonEscape s := by
  have hbyte : ∀ c : UInt8, c ≠ 0 → 0 ∉ jsonEscapeByte c := Lib.forall_uint8 (by decide +kernel)
  have hquote : (0 : UInt8) ∉ lit "\"" := by decide
  unfold jsonEscape jsonEscapeFragment
  simp only [List.mem_append, List.mem_flatMap, not_or, not_exists, not_and]
  refine ⟨⟨hquote, fun c hc => hbyte c fun h0 => ?_⟩, hquote⟩
  exact zero_notMem_cstr s (h0 ▸ hc)

theorem zero_notMem_memberText (ha : Written a) (hw : ∀ c ∈ w, isspace c = true) : 0 ∉ memberText w a := by
  have hzero : (0 : UInt8) ≠ ':'.toUInt8 := by decide
  have hspaces : 0 ∉ w := fun h0 => absurd (hw 0 h0) (by decide)
  unfold memberText
  simp only [List.mem_append, List.mem_cons, not_or]
  refine ⟨zero_notMem_jsonEscape _, hzero, hspaces, ?_⟩
  split
  next => exact zero_notMem_jsonEscape _
  next => exact ha.value

theorem zero_notMem_objectOf (h : ∀ a ∈ as, Written a) (hw : ∀ c ∈ w, isspace c = true) : 0 ∉ objectOf w as := by
  have hbytes : (0 : UInt8) ≠ '\x7b'.toUInt8 ∧ (0 : UInt8) ≠ '\x7d'.toUInt8 ∧ (0 : UInt8) ≠ ','.toUInt8 := by decide
  have hspaces : 0 ∉ w := fun h0 => absurd (hw 0 h0) (by decide)
  have hmember : ∀ a ∈ as, 0 ∉ memberText w a := fun a ha => zero_notMem_memberText (h a ha) hw
  unfold objectOf
  cases as with
  | nil => simpa only [membersText, List.mem_cons, List.not_mem_nil, or_false, not_or] using ⟨hbytes.1, hbytes.2.1⟩
  | cons a as =>
    simp only [membersText, restText, List.mem_cons, List.mem_append, List.mem_flatMap, List.not_mem_nil, or_false,
      not_or, not_exists, not_and]
    refine ⟨hbytes.1, hmember a List.mem_cons_self, fun b hb => ⟨hbytes.2.2, hspaces, ?_⟩, hbytes.2.1⟩
    exact hmember b (List.mem_cons_of_mem a hb)

theorem length_le_membersText (w : Bytes) (as : List JsonArg) : as.length ≤ (membersText w as).length := by
  induction as with
  | nil => exact Nat.zero_le _
  | cons a as ih =>
    have hrest : (membersText w as).length ≤ (restText w as).length := by
      cases as with
      | nil => exact Nat.le_refl _
      | cons b as =>
        rw [restText_cons, List.length_cons, List.length_append]
        omega
    have hkey : 0 < (memberText w a).length := by
      unfold memberText
      rw [List.length_append, List.length_cons]
      omega
    rw [membersText, List.length_append, List.length_cons]
    omega

theorem blank_spaces : ∀ c ∈ lit " ", isspace c = true := by
  have hblank : lit " " = [' '.toUInt8] := by rfl
  intro c hc
  rw [hblank, List.mem_singleton] at hc
  rw [hc]
  rfl

/-- **An object** is read. -/
theorem jsonArgsParse_objectOf (h : ∀ a ∈ as, Written a) (hw : ∀ c ∈ w, isspace c = true) :
    jsonArgsParse (objectOf w as) = some (as.map reread) := by
  obtain ⟨c, t, hct, hspace, -⟩ := jsonWs_membersText h w
  have hlength := length_le_membersText w as
  unfold jsonArgsParse
  rw [cstr_eq_self (zero_notMem_objectOf h hw)]
  unfold objectOf
  rw [jsonWs_cons (by decide)]
  dsimp only
  rw [if_pos rfl, hct, jsonWs_cons hspace, ← hct]
  exact jsonArgsLoop_membersText h hw (by omega)

theorem appendJsonObjectOrEmpty_eq (json : Bytes) :
    appendJsonObjectOrEmpty json = objectOf [] ((jsonArgsParse json).getD []) := by
  have hmember : ∀ a, appendJsonArgPair a = memberText [] a := by
    intro a
    unfold appendJsonArgPair memberText
    rw [List.append_assoc]
    rfl
  have hjoin : ∀ (as : List JsonArg) (a : JsonArg),
      (lit ",").intercalate ((a :: as).map appendJsonArgPair) ++ lit "\x7d" = membersText [] (a :: as) := by
    intro as
    induction as with
    | nil =>
      intro a
      rw [List.map_cons, List.map_nil, List.intercalate_singleton, hmember]
      rfl
    | cons b as ih =>
      intro a
      have hrest : membersText [] (a :: b :: as) = memberText [] a ++ (lit "," ++ membersText [] (b :: as)) :=
        congrArg (memberText [] a ++ ·) (restText_cons [] b as)
      rw [List.map_cons, List.map_cons, List.intercalate_cons_cons, ← List.map_cons, List.append_assoc, ih,
        hmember, List.append_assoc, hrest]
  unfold appendJsonObjectOrEmpty
  cases jsonArgsParse json with
  | none => rfl
  | some as =>
    cases as with
    | nil => rfl
    | cons a as =>
      dsimp only
      rw [List.append_assoc, hjoin]
      rfl

/-- **What is sent** to a client is read as the arguments, for every text: the string that holds them is read as the
    object, and the object as the arguments.  Sending it again changes nothing. -/
theorem sent_object_read (json e : Bytes) :
    jsonString (appendJsonObjectString json ++ e) = some (appendJsonObjectOrEmpty json, e) ∧
      jsonArgsParse (appendJsonObjectOrEmpty json) = some ((jsonArgsParse json).getD []) ∧
      appendJsonObjectOrEmpty (appendJsonObjectOrEmpty json) = appendJsonObjectOrEmpty json := by
  have hnormal : ∀ a ∈ (jsonArgsParse json).getD [], Normal a := by
    cases hargs : jsonArgsParse json with
    | none => exact fun a ha => absurd ha (List.not_mem_nil)
    | some as => exact fun a ha => jsonArgsParse_normal hargs a ha
  have hwritten : ∀ a ∈ (jsonArgsParse json).getD [], Written a := fun a ha => (hnormal a ha).1
  have hspaces : ∀ c ∈ ([] : Bytes), isspace c = true := fun _ hc => absurd hc List.not_mem_nil
  have hread : jsonArgsParse (appendJsonObjectOrEmpty json) = some ((jsonArgsParse json).getD []) := by
    rw [appendJsonObjectOrEmpty_eq, jsonArgsParse_objectOf hwritten hspaces,
      List.map_congr_left fun a ha => (hnormal a ha).2, List.map_id']
  refine ⟨?_, hread, ?_⟩
  · have hzero : 0 ∉ appendJsonObjectOrEmpty json := by
      rw [appendJsonObjectOrEmpty_eq]
      exact zero_notMem_objectOf hwritten hspaces
    obtain ⟨-, -, hstring⟩ := jsonString_jsonEscape hzero e
    exact hstring
  · rw [appendJsonObjectOrEmpty_eq (appendJsonObjectOrEmpty json), hread, Option.getD_some, appendJsonObjectOrEmpty_eq]

end DS4.Server
