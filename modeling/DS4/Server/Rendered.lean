import DS4.Server.RenderedCalls

namespace DS4.Server

/-!
# Server — a turn that is rendered and parsed

A turn of the model in the history is rendered, and parsed when the model repeats it.

* `returned_eq_iff` — **which arguments** come back as they were.
* `toolSearch_last`, `splitReasoningContent_tag`, `take_trimToolSeparatorWs` — the parts of the text.
* `render_parse` — the round trip of a whole message.
-/

variable {a : JsonArg} {tc : ToolCall} {calls : List ToolCall}

/-! ### What comes back -/

/-- An argument that comes back as it was. -/
def Faithful (a : JsonArg) : Prop :=
  if a.isString then NoEntity a.value ∧ ¬ lit "string=" <:+ a.key else ¬ dsmlSyntax.paramEnd <:+: a.value

theorem parameter_marker : lit "</｜DSML｜parameter>" = dsmlSyntax.paramEnd := by decide

/-- **An argument** that was read from JSON comes back as it was just when its value has no entity, if it is a string,
    and not the marker that ends a parameter otherwise. -/
theorem returned_eq_iff (ha : Normal a) (hkey : a.isString = true → ¬ lit "string=" <:+ a.key) :
    returned a = a ↔ Faithful a := by
  obtain ⟨key, value, isString⟩ := a
  have hkinds : lit " string=" ≠ lit "true" ∧ lit "false" ≠ lit "true" := by decide
  have hempty : jsonSkipValue [] ≠ some [] := by decide
  cases isString with
  | true =>
    have hkind : kindRead key true = lit "true" := by
      unfold kindRead
      rw [if_neg (hkey rfl)]
      rfl
    have hreturned : returned ⟨key, value, true⟩ = ⟨key, dsmlUnescapeText (appendDsmlParameterText value), true⟩ := by
      unfold returned leafArg valueText
      dsimp only
      rw [hkind]
      simp only [if_true, decide_true]
    rw [hreturned]
    unfold Faithful
    rw [if_pos rfl, ← unescape_protect_iff ha.1.value]
    simp only [JsonArg.mk.injEq, true_and, and_true]
    exact (and_iff_left (hkey rfl)).symm
  | false =>
    have hkind : kindRead key false ≠ lit "true" := by
      unfold kindRead
      split
      · exact hkinds.1
      · exact hkinds.2
    have hreturned : returned ⟨key, value, false⟩ = ⟨key, jsonOrNull (appendDsmlJsonLiteral value), false⟩ := by
      unfold returned leafArg valueText
      dsimp only
      rw [if_neg hkind, decide_eq_false hkind]
      rfl
    have hcompact := ha.1.json rfl
    obtain ⟨hsame, -, hless⟩ := (guards_parameter).2.count_protect value
    rw [parameter_marker] at hsame hless
    rw [hreturned]
    unfold Faithful
    simp only [Bool.false_eq_true, if_false, JsonArg.mk.injEq, true_and, and_true]
    constructor
    · intro heq hin
      -- the value has more `<` than what is rendered
      have hmin := (jsonMinifyRawValue_sublist (appendDsmlJsonLiteral value)).count_le '<'.toUInt8
      have hlt := hless hin
      unfold jsonOrNull at heq
      split at heq
      next =>
        rw [← heq] at hin
        exact absurd hin.length_le (by decide)
      next =>
        rw [heq] at hmin
        unfold appendDsmlJsonLiteral at hmin
        rw [parameter_marker] at hmin
        omega
    · intro hno
      have hrendered : appendDsmlJsonLiteral value = value := by
        unfold appendDsmlJsonLiteral
        rw [parameter_marker]
        exact hsame hno
      have hne : value ≠ [] := by
        rintro rfl
        exact hempty hcompact.1
      rw [hrendered]
      unfold jsonOrNull
      rw [hcompact.2, if_neg hne]

/-- A string with an entity does not. -/
theorem returned_eq_iff_entity :
    returned ⟨lit "k", lit "&lt;", true⟩ = ⟨lit "k", lit "&lt;", true⟩ ↔ Faithful ⟨lit "k", lit "&lt;", true⟩ :=
  returned_eq_iff ⟨⟨by decide, by decide, nofun⟩, by decide⟩ fun _ => by decide

theorem returned_faithful (ha : Normal a) (h : Faithful a) : returned a = a := by
  refine (returned_eq_iff ha fun hstring => ?_).mpr h
  unfold Faithful at h
  rw [if_pos hstring] at h
  exact h.2

/-! ### A whole message -/

/-- Behind a text that does not end with white space, that of the rest is trimmed. -/
theorem rdropWhile_append {p : UInt8 → Bool} {c : UInt8} (hc : p c = false) (s t : Bytes) :
    (s ++ [c] ++ t).rdropWhile p = s ++ [c] ++ t.rdropWhile p := by
  induction t using List.reverseRecOn with
  | nil => rw [List.append_nil, List.rdropWhile_concat_neg _ _ _ (by rw [hc]; decide), List.rdropWhile_nil, List.append_nil]
  | append_singleton t d ih =>
    rw [← List.append_assoc, List.rdropWhile_concat, List.rdropWhile_concat, ih]
    split
    · rfl
    · rw [List.append_assoc]

theorem take_trimToolSeparatorWs (s : Bytes) {n : Nat} (hn : n ≤ s.length) :
    s.take (trimToolSeparatorWs s 0 n) = (s.take n).rdropWhile isspace := by
  induction n with
  | zero => rfl
  | succ n ih =>
    have hget : s.getD n 0 = s[n] := by rw [List.getD_eq_getElem?_getD, List.getElem?_eq_getElem hn, Option.getD_some]
    have htake : s.take (n + 1) = s.take n ++ [s[n]] := by
      rw [List.take_add_one, List.getElem?_eq_getElem hn]
      rfl
    rw [trimToolSeparatorWs, hget, htake, List.rdropWhile_concat]
    by_cases hspace : isspace s[n] = true
    · rw [if_pos ⟨Nat.succ_pos n, hspace⟩, if_pos hspace]
      exact ih (Nat.le_of_succ_le hn)
    · rw [if_neg fun h => hspace h.2, if_neg hspace, htake]

/-- The reasoning is split off at its tag. -/
theorem splitReasoningContent_tag {reasoning content : Bytes} (hnul : 0 ∉ reasoning ++ THINK_END ++ content)
    (hend : ¬ THINK_END <:+: reasoning) (hstart : ¬ THINK_START <+: reasoning) :
    splitReasoningContent (reasoning ++ THINK_END ++ content) = (content, some reasoning) := by
  have htags : THINK_START.length = 7 ∧ (∀ d < 7, 0 < d → THINK_START[d]? ≠ some '<'.toUInt8) ∧
      THINK_END[0]? = some '<'.toUInt8 ∧ ¬ THINK_START <+: THINK_END ∧ THINK_END.length = 8 ∧
      THINK_END = THINK_END.dropLast ++ ['>'.toUInt8] ∧ '>'.toUInt8 ∉ THINK_END.dropLast := by decide
  obtain ⟨hlen, hinner, hhead, hdiffer, hlen', hstop, hfree⟩ := htags
  -- there is no `<think>` in front
  have hnot : ¬ THINK_START <+: reasoning ++ THINK_END ++ content := by
    intro hp
    by_cases hlong : 7 ≤ reasoning.length
    · refine hstart (List.prefix_of_prefix_length_le hp ?_ (by rw [hlen]; exact hlong))
      rw [List.append_assoc]
      exact List.prefix_append _ _
    · have hget : (reasoning ++ THINK_END ++ content)[reasoning.length]? = some '<'.toUInt8 := by
        rw [List.append_assoc, List.getElem?_append_right (Nat.le_refl _), Nat.sub_self,
          List.getElem?_append_left (by rw [hlen']; decide), hhead]
      obtain ⟨x, hx⟩ := hp
      rw [← hx, List.getElem?_append_left (by omega)] at hget
      have hzero : reasoning = [] := by
        by_contra hne
        exact hinner _ (by omega) (List.length_pos_iff.mpr hne) hget
      rw [hzero, List.nil_append] at hx
      exact hdiffer (List.prefix_of_prefix_length_le ⟨x, hx⟩ (List.prefix_append _ _) (by omega))
  have hfind : strstr (reasoning ++ THINK_END ++ content) THINK_END = some reasoning.length := by
    unfold strstr
    rw [cstr_eq_self hnul, List.append_assoc]
    rw [hstop] at hend ⊢
    exact Lib.findSub_ends hfree hend content
  unfold splitReasoningContent
  rw [if_neg fun h => hnot (List.isPrefixOf_iff_prefix.mp h)]
  dsimp only
  rw [hfind]
  dsimp only
  rw [List.append_assoc, List.take_left, ← List.drop_drop, List.drop_left, List.drop_left]

theorem renderedArgs_values (h : 0 ∉ tc.arguments) : ∀ a ∈ renderedArgs tc, 0 ∉ a.value := by
  unfold renderedArgs
  cases hargs : jsonArgsParse tc.arguments with
  | none =>
    intro a ha
    rw [List.mem_singleton.mp ha]
    exact h
  | some as => exact fun a ha => (jsonArgsParse_normal hargs a ha).1.value

theorem zero_notMem_appendDsmlToolCall (h : 0 ∉ tc.name ∧ 0 ∉ tc.arguments) : 0 ∉ appendDsmlToolCall tc := by
  have hlits : 0 ∉ lit "<｜DSML｜invoke name=" ∧ (0 : UInt8) ≠ QUOTE ∧ 0 ∉ lit ">" ∧ (0 : UInt8) ≠ 0x0a ∧
      0 ∉ dsmlSyntax.invokeEnd ∧ 0 ∉ dsmlSyntax.paramEnd ∧ 0 ∉ lit "&lt;" ∧ 0 ∉ lit "\\u003c" := by decide
  obtain ⟨hinvoke, hquote, hgt, hline, hend, hparam, hlt, hu⟩ := hlits
  have hname := notMem_attr (Or.inr (Or.inr ⟨rfl, h.1⟩))
  have harg : ∀ a ∈ renderedArgs tc, 0 ∉ appendDsmlArg a := by
    intro a ha
    have hvalue : 0 ∉ valueText a := by
      have hzero := renderedArgs_values h.2 a ha
      unfold valueText
      split
      · exact notMem_protect hzero hlt
      · exact notMem_protect hzero hu
    have htag := paramTag_zero (renderedArgs_keys tc a ha) a.isString
    rw [appendDsmlArg_eq]
    simp only [List.mem_append, List.mem_cons, List.not_mem_nil, or_false, not_or]
    exact ⟨htag, hvalue, hparam, hline⟩
  rw [appendDsmlToolCall_eq]
  unfold invokeTag
  simp only [List.mem_append, List.mem_cons, List.mem_flatMap, List.not_mem_nil, or_false, not_or, not_exists, not_and]
  exact ⟨⟨hinvoke, hquote, hname, hquote, hgt⟩, hline, harg, hend, hline⟩

/-- The block of some calls. -/
theorem appendDsmlToolCallsText_eq (hne : calls ≠ []) :
    appendDsmlToolCallsText ⟨calls, []⟩ = lit "\n\n" ++ (dsmlSyntax.toolCallsStart ++
      (0x0a :: (calls.flatMap appendDsmlToolCall ++ dsmlSyntax.toolCallsEnd))) := by
  have hlits : lit "\n\n<｜DSML｜tool_calls>\n" = lit "\n\n" ++ (dsmlSyntax.toolCallsStart ++ [0x0a]) ∧
      lit "</｜DSML｜tool_calls>" = dsmlSyntax.toolCallsEnd := by decide
  unfold appendDsmlToolCallsText
  rw [if_neg hne, if_neg (fun h => h rfl), hlits.1, hlits.2]
  simp only [List.append_assoc, List.cons_append, List.nil_append]

theorem zero_notMem_rendered (hne : calls ≠ []) (h : NulFreeCalls calls) : 0 ∉ appendDsmlToolCallsText ⟨calls, []⟩ := by
  have hlits : 0 ∉ lit "\n\n" ∧ 0 ∉ dsmlSyntax.toolCallsStart ∧ (0 : UInt8) ≠ 0x0a ∧ 0 ∉ dsmlSyntax.toolCallsEnd := by
    decide
  rw [appendDsmlToolCallsText_eq hne]
  simp only [List.mem_append, List.mem_cons, List.mem_flatMap, not_or, not_exists, not_and]
  exact ⟨hlits.1, hlits.2.1, hlits.2.2.1, fun tc htc => zero_notMem_appendDsmlToolCall (h tc htc), hlits.2.2.2⟩

/-- The last `</think>`. -/
theorem toolSearch_last {before behind : Bytes} (hzero : 0 ∉ before ++ THINK_END ++ behind)
    (hlast : ¬ THINK_END <:+: behind) :
    toolSearch (before ++ THINK_END ++ behind) true = some (before.length + THINK_END.length) := by
  have hat : THINK_END <+: (before ++ THINK_END ++ behind).drop before.length := by
    rw [List.append_assoc, List.drop_left]
    exact List.prefix_append _ _
  have hle : before.length ≤ (before ++ THINK_END ++ behind).length := by
    rw [List.append_assoc, List.length_append]
    omega
  obtain ⟨hnone, hsome⟩ := Lib.findLast_spec THINK_END (before ++ THINK_END ++ behind)
  have hfind : Lib.findLast THINK_END (before ++ THINK_END ++ behind) = some before.length := by
    cases hl : Lib.findLast THINK_END (before ++ THINK_END ++ behind) with
    | none => exact absurd hat (hnone hl _ hle)
    | some i =>
      obtain ⟨hi, hati, hmax⟩ := hsome i hl
      rcases Nat.lt_trichotomy i before.length with hlt | rfl | hlt
      · exact absurd hat (hmax _ hle hlt)
      · rfl
      · -- a later one would stand behind
        obtain ⟨y, hy⟩ := hati
        have hsplit : before ++ THINK_END ++ behind = (before ++ THINK_END ++ behind).take i ++ THINK_END ++ y := by
          rw [List.append_assoc _ THINK_END y, hy, List.take_append_drop]
        have hlen := congrArg List.length hsplit
        simp only [List.length_append, List.length_take] at hlen hi
        exact absurd (thinkTags_apart end_mem_thinkTags hsplit (by omega)) hlast
  unfold toolSearch findLastSubstr
  rw [if_pos rfl, if_neg (by decide), cstr_eq_self hzero, hfind, Option.map_some]

end DS4.Server
