import DS4.Server.ParsedMessage
import DS4.Server.StreamSafe
import DS4.Server.ToolArguments

namespace DS4.Server

/-!
# Server — the calls of a message as a client gets them

The final message and the history take the arguments of a call from their text, and send `{}` where it
is not read.

* `Given` — an argument as the parser gives it; `CallsAt.given`.
* `jsonArgsParse_objectText_iff` — **the arguments** are read just when every value of them is JSON.
* `parsed_calls_sent` — the calls of every message.
-/

variable {syn : DsmlSyntax} {a : JsonArg} {as : List JsonArg} {p q s rest name raw tag value type : Bytes}

/-! ### Arguments of the parser -/

/-- An argument as the parser gives it. -/
structure Given (a : JsonArg) : Prop where
  key : 0 ∉ a.key
  value : 0 ∉ a.value
  json : a.isString = false → ∃ raw, a.value = jsonOrNull raw

theorem zero_notMem_dsmlUnescapeText (s : Bytes) : 0 ∉ dsmlUnescapeText s := by
  have hnul : NulFree (cstr s) := fun c hc h0 => zero_notMem_cstr s (h0 ▸ hc)
  exact fun hmem => hnul.unescapeFrom 0 0 hmem rfl

theorem zero_notMem_dsmlAttr (h : dsmlAttr tag name = some value) : 0 ∉ value := by
  unfold dsmlAttr at h
  dsimp only at h
  split at h
  next => exact absurd h nofun
  next =>
    split at h
    next => exact absurd h nofun
    next =>
      rw [← Option.some.inj h]
      exact zero_notMem_dsmlUnescapeText _

theorem zero_notMem_jsonOrNull (h : 0 ∉ raw) : 0 ∉ jsonOrNull raw := by
  unfold jsonOrNull
  split
  next => exact by decide
  next => exact fun h0 => h ((jsonMinifyRawValue_sublist raw).subset h0)

theorem leafArg_given (hname : 0 ∉ name) (hraw : 0 ∉ raw) (type : Bytes) : Given (leafArg name type raw) where
  key := hname
  value := by
    unfold leafArg
    dsimp only
    split
    next => exact zero_notMem_dsmlUnescapeText raw
    next => exact zero_notMem_jsonOrNull hraw
  json := by
    unfold leafArg
    dsimp only
    intro htype
    rw [if_neg (of_decide_eq_false htype)]
    exact ⟨raw, rfl⟩

theorem argText_eq (a : JsonArg) : argText a = memberText (lit " ") a := by
  unfold argText memberText
  rw [List.append_assoc]
  rfl

/-- The arguments of a call as an object. -/
theorem objectText_eq (as : List JsonArg) : objectText as = objectOf (lit " ") as := by
  have hmembers : argsText as ++ lit "\x7d" = membersText (lit " ") as := by
    cases as with
    | nil => rfl
    | cons a as =>
      unfold argsText membersText restText
      simp only [argText_eq, List.append_assoc]
      rfl
  unfold objectText objectOf
  rw [List.append_assoc, hmembers]
  rfl

theorem zero_notMem_objectText (h : ∀ a ∈ as, 0 ∉ a.value) : 0 ∉ objectText as := by
  have hlits : 0 ∉ lit ": " ∧ 0 ∉ lit ", " ∧ 0 ∉ lit "\x7b" ∧ 0 ∉ lit "\x7d" := by decide
  have harg : ∀ a ∈ as, 0 ∉ argText a := by
    intro a ha
    unfold argText
    simp only [List.mem_append, not_or]
    refine ⟨⟨zero_notMem_jsonEscape _, hlits.1⟩, ?_⟩
    split
    next => exact zero_notMem_jsonEscape _
    next => exact h a ha
  have hargs : 0 ∉ argsText as := by
    cases as with
    | nil => exact List.not_mem_nil
    | cons a as =>
      unfold argsText
      simp only [List.mem_append, List.mem_flatMap, not_or, not_exists, not_and]
      exact ⟨harg a List.mem_cons_self, fun b hb => ⟨hlits.2.1, harg b (List.mem_cons_of_mem a hb)⟩⟩
  unfold objectText
  simp only [List.mem_append, not_or]
  exact ⟨⟨hlits.2.2.1, hargs⟩, hlits.2.2.2⟩

theorem objectArg_given (hname : 0 ∉ name) (h : ∀ a ∈ as, Given a) : Given (objectArg name as) where
  key := hname
  value := zero_notMem_jsonOrNull (zero_notMem_objectText fun a ha => (h a ha).value)
  json := fun _ => ⟨objectText as, rfl⟩

/-! ### Blocks -/

theorem LeafAt.given (h : LeafAt syn p a rest) (hp : 0 ∉ p) : Given a := by
  obtain ⟨tag, value, name, raw, htag, hname, hvalue, rfl⟩ := h.reads
  have hraw := (readValue_parts hvalue).1
  refine leafArg_given (zero_notMem_dsmlAttr hname) (fun h0 => ?_) _
  exact hp ((readTag_suffix htag).subset (hraw.subset h0))

theorem LeavesAt.given (h : LeavesAt syn p as rest) (hp : 0 ∉ p) : ∀ a ∈ as, Given a := by
  induction h with
  | done h => exact fun a ha => absurd ha List.not_mem_nil
  | @next p q rest a as h hrest ih =>
    have hskip := zero_notMem_suffix hp (skipAsciiWs_suffix p)
    have hq := zero_notMem_suffix hskip h.suffix.1
    exact List.forall_mem_cons.mpr ⟨h.given hskip, ih hq⟩

theorem ParamAt.given (h : ParamAt syn p a rest) (hp : 0 ∉ p) : Given a := by
  cases h with
  | leaf htag hname hflat hvalue =>
    have hraw := (readValue_parts hvalue).1
    refine leafArg_given (zero_notMem_dsmlAttr hname) (fun h0 => ?_) _
    exact hp ((readTag_suffix htag).subset (hraw.subset h0))
  | object htag hname htype hnested hleaves =>
    exact objectArg_given (zero_notMem_dsmlAttr hname) (hleaves.given (zero_notMem_suffix hp (readTag_suffix htag)))

theorem ParamsAt.given (h : ParamsAt syn p as rest) (hp : 0 ∉ p) : ∀ a ∈ as, Given a := by
  induction h with
  | done h => exact fun a ha => absurd ha List.not_mem_nil
  | @next p q rest a as hend hstart h hrest ih =>
    have hskip := zero_notMem_suffix hp (skipAsciiWs_suffix p)
    have hq := zero_notMem_suffix hskip h.suffix.1
    exact List.forall_mem_cons.mpr ⟨h.given hskip, ih hq⟩

theorem InvokeAt.given {c : Bytes × List JsonArg} (h : InvokeAt syn p c rest) (hp : 0 ∉ p) : ∀ a ∈ c.2, Given a := by
  obtain ⟨tag, q, htag, -, hparams⟩ := h.reads
  exact hparams.given (zero_notMem_suffix hp (readTag_suffix htag))

theorem CallsAt.given {cs : List (Bytes × List JsonArg)} (h : CallsAt syn p cs rest) (hp : 0 ∉ p) :
    ∀ c ∈ cs, ∀ a ∈ c.2, Given a := by
  induction h with
  | done h => exact fun c hc => absurd hc List.not_mem_nil
  | @next p q rest c cs hend h hrest ih =>
    have hskip := zero_notMem_suffix hp (skipAsciiWs_suffix p)
    have hq := zero_notMem_suffix hskip h.suffix.1
    exact List.forall_mem_cons.mpr ⟨h.given hskip, ih hq⟩

/-! ### Reading the arguments -/

theorem jsonSkipValue_jsonString {text : Bytes} (h : jsonString s = some (text, rest)) :
    jsonSkipValue s = some rest := by
  obtain ⟨b, hws, hb⟩ := jsonString_cut h
  exact jsonSkipValue_eq_some_iff.mpr ⟨_, .string hb hws⟩

/-- **The arguments** of a call are read just when every value of them that is no string is JSON. -/
theorem jsonArgsParse_objectText_iff (h : ∀ a ∈ as, Given a) :
    jsonArgsParse (objectText as) = some (as.map reread) ↔ ∀ a ∈ as, a.isString = false → Compact a.value := by
  constructor
  · intro hread a ha hstring
    have hnormal := jsonArgsParse_normal hread (reread a) (List.mem_map_of_mem ha)
    obtain ⟨raw, hraw⟩ := (h a ha).json hstring
    unfold reread at hnormal
    rw [if_neg (by rw [hstring]; decide)] at hnormal
    split at hnormal
    next text hstr =>
      -- the value is a string behind white space, which is JSON
      have hskip := jsonSkipValue_jsonString hstr
      rw [hraw] at hskip ⊢
      rw [compact_jsonOrNull_iff]
      by_cases hnone : jsonSkipValue raw = none
      · have hmin := jsonMinifyRawValue_none hnone
        unfold jsonOrNull at hskip
        rw [hmin] at hskip
        by_cases hnil : raw = []
        · exact Or.inl hnil
        · rw [if_neg hnil, hnone] at hskip
          exact absurd hskip nofun
      · exact Or.inr hnone
    next => exact hnormal.1.json hstring
  · intro hjson
    have hwritten : ∀ a ∈ as, Written a := fun a ha => ⟨(h a ha).key, (h a ha).value, hjson a ha⟩
    rw [objectText_eq]
    exact jsonArgsParse_objectOf hwritten blank_spaces

/-- **The calls** of every message.  They are those of its block, in order, and the arguments of a call, as the final
    message and the history read them, are all its parameters just when the value of every parameter that is no string
    is JSON: it is empty or starts with a value.  Then the object that is sent has every parameter. -/
theorem parsed_calls_sent (text : Bytes) (closed : Bool) (m : Message)
    (h : parseGeneratedMessageEx text closed = some m) :
    ∃ cs, m.calls.v = cs.map callOf ∧
      (cs ≠ [] → ∃ pos rest, BlockOf (cstr text) closed pos m.calls.rawDsml rest cs) ∧
      ∀ c ∈ cs,
        (∀ a ∈ c.2, a.isString = false →
          ∃ raw, a.value = jsonOrNull raw ∧ (Compact a.value ↔ raw = [] ∨ jsonSkipValue raw ≠ none)) ∧
        (jsonArgsParse (callOf c).arguments = some (c.2.map reread) ↔
          ∀ a ∈ c.2, a.isString = false → Compact a.value) ∧
        ((∀ a ∈ c.2, a.isString = false → Compact a.value) →
          appendJsonObjectOrEmpty (callOf c).arguments = objectOf [] (c.2.map reread)) := by
  rcases parseMessage_iff.mp h with ⟨-, rfl⟩ | ⟨pos, raw, rest, cs, hblock, rfl⟩
  · exact ⟨[], rfl, fun hne => absurd rfl hne, fun c hc => absurd hc List.not_mem_nil⟩
  refine ⟨cs, rfl, fun _ => ⟨pos, rest, hblock⟩, fun c hc => ?_⟩
  obtain ⟨k, i, syn, j, -, -, -, -, hcs⟩ := hblock.found
  have hnul : 0 ∉ ((cstr text).drop pos).drop (j + syn.toolCallsStart.length) := fun h0 =>
    zero_notMem_cstr text (List.mem_of_mem_drop (List.mem_of_mem_drop h0))
  have hgiven := hcs.given hnul c hc
  have hiff : jsonArgsParse (callOf c).arguments = some (c.2.map reread) ↔
      ∀ a ∈ c.2, a.isString = false → Compact a.value := jsonArgsParse_objectText_iff hgiven
  refine ⟨fun a ha hstring => ?_, hiff, fun hjson => ?_⟩
  · obtain ⟨raw, hraw⟩ := (hgiven a ha).json hstring
    exact ⟨raw, hraw, by rw [hraw]; exact compact_jsonOrNull_iff⟩
  · rw [appendJsonObjectOrEmpty_eq, hiff.mpr hjson]
    rfl

/-- A value that is no JSON. -/
theorem parsed_calls_sent_word :
    ∃ cs, [⟨lit "f", lit "\x7b\"a\": x\x7d"⟩] = cs.map callOf ∧
      (cs ≠ [] → ∃ pos rest, BlockOf
        (cstr (lit "<tool_calls><invoke name=\"f\"><parameter name=\"a\" string=\"false\">x</parameter></invoke></tool_calls>"))
        false pos
        (lit "<tool_calls><invoke name=\"f\"><parameter name=\"a\" string=\"false\">x</parameter></invoke></tool_calls>")
        rest cs) ∧
      ∀ c ∈ cs,
        (∀ a ∈ c.2, a.isString = false →
          ∃ raw, a.value = jsonOrNull raw ∧ (Compact a.value ↔ raw = [] ∨ jsonSkipValue raw ≠ none)) ∧
        (jsonArgsParse (callOf c).arguments = some (c.2.map reread) ↔
          ∀ a ∈ c.2, a.isString = false → Compact a.value) ∧
        ((∀ a ∈ c.2, a.isString = false → Compact a.value) →
          appendJsonObjectOrEmpty (callOf c).arguments = objectOf [] (c.2.map reread)) :=
  parsed_calls_sent
    (lit "<tool_calls><invoke name=\"f\"><parameter name=\"a\" string=\"false\">x</parameter></invoke></tool_calls>") false
    ⟨[], none, ⟨[⟨lit "f", lit "\x7b\"a\": x\x7d"⟩],
      lit "<tool_calls><invoke name=\"f\"><parameter name=\"a\" string=\"false\">x</parameter></invoke></tool_calls>"⟩⟩
    (by decide +kernel)

end DS4.Server
