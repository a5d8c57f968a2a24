import DS4.Server.RenderedText
import DS4.Server.SentCalls

namespace DS4.Server

/-!
# Server — rendered calls are parsed

* `dsmlAttr_here`, `dsmlAttr_later` — an attribute in front of the first quote, or behind it.
* `paramTag`, `invokeTag` — the tags of the renderer; `paramTag_string` — a key that ends with `string=` hides the type.
* `returned` — what comes back of an argument.
* `rendered_calls` — **what the parser makes** of rendered calls, whatever their arguments.
-/

variable {s t v attr name key rest : Bytes} {a : JsonArg} {as : List JsonArg} {tc : ToolCall} {calls : List ToolCall}

/-! ### Attributes -/

/-- `"` -/
def QUOTE : UInt8 := '"'.toUInt8

theorem attr_pattern (attr : Bytes) : attr ++ lit "=\"" = (attr ++ lit "=") ++ [QUOTE] := by
  rw [List.append_assoc]
  rfl

theorem quote_notMem_pattern (h : QUOTE ∉ attr) : QUOTE ∉ attr ++ lit "=" := fun hmem =>
  (List.mem_append.mp hmem).elim h (by decide)

/-- An attribute in front of the first quote. -/
theorem dsmlAttr_here (hattr : QUOTE ∉ attr) (hs : QUOTE ∉ s) (hv : QUOTE ∉ v)
    (hzero : 0 ∉ s ++ QUOTE :: (v ++ QUOTE :: t)) (hsuffix : attr ++ lit "=" <:+ s) :
    dsmlAttr (s ++ QUOTE :: (v ++ QUOTE :: t)) attr = some (unescapeFrom 0 v) := by
  have hle := hsuffix.length_le
  have hlen : ∀ u : Bytes, u.length ≤ s.length → s.length - u.length + (u ++ [QUOTE]).length = s.length + 1 := by
    intro u hu
    rw [List.length_append, List.length_singleton]
    omega
  have hdrop : (s ++ QUOTE :: (v ++ QUOTE :: t)).drop (s.length + 1) = v ++ QUOTE :: t := by
    rw [← List.drop_drop, List.drop_left]
    rfl
  have hend : Lib.findSub (lit "\"") (v ++ QUOTE :: t) = some v.length :=
    Lib.findSub_singleton_iff.mpr ⟨v, t, rfl, hv, rfl⟩
  have hfind : strstr (s ++ QUOTE :: (v ++ QUOTE :: t)) (attr ++ lit "=" ++ [QUOTE]) =
      some (s.length - (attr ++ lit "=").length) := by
    unfold strstr
    rw [cstr_eq_self hzero, Lib.findSub_stop (quote_notMem_pattern hattr) hs,
      if_pos (List.isSuffixOf_iff_suffix.mpr hsuffix)]
  have hv0 : 0 ∉ v := fun h0 => hzero (List.mem_append_right s (List.mem_cons_of_mem _ (List.mem_append_left _ h0)))
  unfold dsmlAttr
  rw [attr_pattern]
  dsimp only
  rw [hfind]
  dsimp only
  rw [hlen _ hle, cstr_eq_self hzero, hdrop, hend]
  dsimp only
  rw [List.take_left, dsmlUnescapeText, cstr_eq_self hv0]

/-- An attribute behind the first quote. -/
theorem dsmlAttr_later (hattr : QUOTE ∉ attr) (hs : QUOTE ∉ s) (hzero : 0 ∉ s ++ QUOTE :: t)
    (hsuffix : ¬ attr ++ lit "=" <:+ s) : dsmlAttr (s ++ QUOTE :: t) attr = dsmlAttr t attr := by
  have hzero' : 0 ∉ t := fun hmem => hzero (List.mem_append_right s (List.mem_cons_of_mem _ hmem))
  have hno : ¬ (attr ++ lit "=").isSuffixOf s = true := fun h => hsuffix (List.isSuffixOf_iff_suffix.mp h)
  have hdrop : ∀ k, (s ++ QUOTE :: t).drop (s.length + 1 + k) = t.drop k := by
    intro k
    rw [Nat.add_assoc, ← List.drop_drop, List.drop_left, Nat.add_comm 1 k]
    rfl
  unfold dsmlAttr strstr
  rw [attr_pattern, cstr_eq_self hzero, cstr_eq_self hzero']
  dsimp only
  rw [Lib.findSub_stop (quote_notMem_pattern hattr) hs, if_neg hno]
  cases Lib.findSub (attr ++ lit "=" ++ [QUOTE]) t with
  | none => rfl
  | some i =>
    dsimp only [Option.map_some]
    rw [Nat.add_assoc, hdrop]

/-! ### Tags -/

/-- The type of a parameter. -/
def kind (isString : Bool) : Bytes := if isString then lit "true" else lit "false"

/-- The opening tag of a parameter. -/
def paramTag (key : Bytes) (isString : Bool) : Bytes :=
  lit "<｜DSML｜parameter name=" ++ QUOTE :: (appendDsmlAttrEscaped key ++ QUOTE ::
    (lit " string=" ++ QUOTE :: (kind isString ++ QUOTE :: lit ">")))

/-- The opening tag of a call. -/
def invokeTag (name : Bytes) : Bytes :=
  lit "<｜DSML｜invoke name=" ++ QUOTE :: (appendDsmlAttrEscaped name ++ QUOTE :: lit ">")

/-- The type that the parser reads. -/
def kindRead (key : Bytes) (isString : Bool) : Bytes :=
  if lit "string=" <:+ key then lit " string=" else kind isString

theorem kind_bytes (b : Bool) : 0 ∉ kind b ∧ QUOTE ∉ kind b ∧ '>'.toUInt8 ∉ kind b ∧ unescapeFrom 0 (kind b) = kind b := by
  cases b <;> decide

theorem paramTag_zero (h : 0 ∉ key) (b : Bool) : 0 ∉ paramTag key b := by
  have hlits : 0 ∉ lit "<｜DSML｜parameter name=" ∧ 0 ∉ lit " string=" ∧ 0 ∉ lit ">" ∧ (0 : UInt8) ≠ QUOTE := by
    decide
  have hkey := notMem_attr (Or.inr (Or.inr ⟨rfl, h⟩))
  unfold paramTag
  simp only [List.mem_append, List.mem_cons, not_or]
  exact ⟨hlits.1, hlits.2.2.2, hkey, hlits.2.2.2, hlits.2.1, hlits.2.2.2, (kind_bytes b).1, hlits.2.2.2, hlits.2.2.1⟩

theorem paramTag_name (h : 0 ∉ key) (b : Bool) : dsmlAttr (paramTag key b) (lit "name") = some key := by
  have hlits : QUOTE ∉ lit "name" ∧ QUOTE ∉ lit "<｜DSML｜parameter name=" ∧
      lit "name" ++ lit "=" <:+ lit "<｜DSML｜parameter name=" := by decide
  have hkey := notMem_attr (s := key) (Or.inr (Or.inl rfl))
  exact (dsmlAttr_here hlits.1 hlits.2.1 hkey (paramTag_zero h b) hlits.2.2).trans
    (congrArg some (unescapeFrom_attr key))

/-- **The type** of a parameter is read, unless its key ends with `string=`. -/
theorem paramTag_string (h : 0 ∉ key) (b : Bool) :
    dsmlAttr (paramTag key b) (lit "string") = some (kindRead key b) := by
  have hlits : QUOTE ∉ lit "string" ∧ QUOTE ∉ lit "<｜DSML｜parameter name=" ∧
      ¬ lit "string" ++ lit "=" <:+ lit "<｜DSML｜parameter name=" ∧ QUOTE ∉ lit " string=" ∧
      lit "string" ++ lit "=" <:+ lit " string=" ∧ unescapeFrom 0 (lit " string=") = lit " string=" ∧
      lit "string" ++ lit "=" = lit "string=" := by decide
  obtain ⟨hattr, hhead, hnot, hquote, hsuffix, hread, hpat⟩ := hlits
  have hplain : ∀ x ∈ lit "string=", x ≠ ';'.toUInt8 ∧ appendDsmlAttrEscaped [x] = [x] := by decide +kernel
  have hkey : QUOTE ∉ appendDsmlAttrEscaped key := notMem_attr (Or.inr (Or.inl rfl))
  have hzero := paramTag_zero h b
  have hfirst : dsmlAttr (paramTag key b) (lit "string") = _ := dsmlAttr_later hattr hhead hzero hnot
  have hzero' : 0 ∉ appendDsmlAttrEscaped key ++ QUOTE :: (lit " string=" ++ QUOTE :: (kind b ++ QUOTE :: lit ">")) :=
    fun hmem => hzero (List.mem_append_right _ (List.mem_cons_of_mem _ hmem))
  rw [hfirst]
  unfold kindRead
  by_cases hends : lit "string=" <:+ key
  · rw [if_pos hends]
    have hends' := (suffix_attr_iff hplain).mpr hends
    rw [← hpat] at hends'
    rw [dsmlAttr_here hattr hkey hquote hzero' hends', hread]
  · rw [if_neg hends]
    have hends' : ¬ lit "string" ++ lit "=" <:+ appendDsmlAttrEscaped key := by
      rw [hpat, suffix_attr_iff hplain]
      exact hends
    have hzero'' : 0 ∉ lit " string=" ++ QUOTE :: (kind b ++ QUOTE :: lit ">") := fun hmem =>
      hzero' (List.mem_append_right _ (List.mem_cons_of_mem _ hmem))
    rw [dsmlAttr_later hattr hkey hzero' hends',
      dsmlAttr_here hattr hquote (kind_bytes b).2.1 hzero'' hsuffix, (kind_bytes b).2.2.2]

theorem invokeTag_name (h : 0 ∉ name) : dsmlAttr (invokeTag name) (lit "name") = some name := by
  have hlits : QUOTE ∉ lit "name" ∧ QUOTE ∉ lit "<｜DSML｜invoke name=" ∧
      lit "name" ++ lit "=" <:+ lit "<｜DSML｜invoke name=" ∧ 0 ∉ lit "<｜DSML｜invoke name=" ∧ (0 : UInt8) ≠ QUOTE ∧
      0 ∉ lit ">" := by decide
  obtain ⟨hattr, hhead, hsuffix, h0, hne, hgt⟩ := hlits
  have hname : QUOTE ∉ appendDsmlAttrEscaped name := notMem_attr (Or.inr (Or.inl rfl))
  have hzero : 0 ∉ invokeTag name := by
    have hname0 := notMem_attr (Or.inr (Or.inr ⟨rfl, h⟩))
    unfold invokeTag
    simp only [List.mem_append, List.mem_cons, not_or]
    exact ⟨h0, hne, hname0, hne, hgt⟩
  exact (dsmlAttr_here hattr hhead hname hzero hsuffix).trans (congrArg some (unescapeFrom_attr name))

/-- A tag ends with its only `>`. -/
theorem readTag_of (h : '>'.toUInt8 ∉ s) (rest : Bytes) :
    readTag (s ++ lit ">" ++ rest) = some (s ++ lit ">", rest) := by
  have hlit : lit ">" = ['>'.toUInt8] := by decide
  have hfind : Lib.findSub (lit ">") (s ++ lit ">" ++ rest) = some s.length := by
    rw [hlit, Lib.findSub_singleton_iff]
    exact ⟨s, rest, by rw [List.append_assoc]; rfl, h, rfl⟩
  have hlen : (s ++ lit ">").length = s.length + 1 := by rw [List.length_append, hlit, List.length_singleton]
  unfold readTag
  rw [hfind, Option.map_some, ← hlen, List.take_left, List.drop_left]

theorem readTag_paramTag (key : Bytes) (b : Bool) (rest : Bytes) :
    readTag (paramTag key b ++ rest) = some (paramTag key b, rest) := by
  have hlits : '>'.toUInt8 ∉ lit "<｜DSML｜parameter name=" ∧ '>'.toUInt8 ∉ lit " string=" ∧ '>'.toUInt8 ≠ QUOTE := by
    decide
  have hkey : '>'.toUInt8 ∉ appendDsmlAttrEscaped key := notMem_attr (Or.inl rfl)
  have hno : '>'.toUInt8 ∉ lit "<｜DSML｜parameter name=" ++ QUOTE :: (appendDsmlAttrEscaped key ++ QUOTE ::
      (lit " string=" ++ QUOTE :: (kind b ++ [QUOTE]))) := by
    simp only [List.mem_append, List.mem_cons, List.not_mem_nil, or_false, not_or]
    exact ⟨hlits.1, hlits.2.2, hkey, hlits.2.2, hlits.2.1, hlits.2.2, (kind_bytes b).2.2.1, hlits.2.2⟩
  have htag : paramTag key b = lit "<｜DSML｜parameter name=" ++ QUOTE :: (appendDsmlAttrEscaped key ++ QUOTE ::
      (lit " string=" ++ QUOTE :: (kind b ++ [QUOTE]))) ++ lit ">" := by
    unfold paramTag
    simp only [List.append_assoc, List.cons_append, List.nil_append]
  rw [htag]
  exact readTag_of hno rest

theorem readTag_invokeTag (name rest : Bytes) : readTag (invokeTag name ++ rest) = some (invokeTag name, rest) := by
  have hlits : '>'.toUInt8 ∉ lit "<｜DSML｜invoke name=" ∧ '>'.toUInt8 ≠ QUOTE := by decide
  have hname : '>'.toUInt8 ∉ appendDsmlAttrEscaped name := notMem_attr (Or.inl rfl)
  have hno : '>'.toUInt8 ∉ lit "<｜DSML｜invoke name=" ++ QUOTE :: (appendDsmlAttrEscaped name ++ [QUOTE]) := by
    simp only [List.mem_append, List.mem_cons, List.not_mem_nil, or_false, not_or]
    exact ⟨hlits.1, hlits.2, hname, hlits.2⟩
  have htag : invokeTag name =
      lit "<｜DSML｜invoke name=" ++ QUOTE :: (appendDsmlAttrEscaped name ++ [QUOTE]) ++ lit ">" := by
    unfold invokeTag
    simp only [List.append_assoc, List.cons_append, List.nil_append]
  rw [htag]
  exact readTag_of hno rest

/-! ### Calls -/

/-- The value of a parameter as it is rendered. -/
def valueText (a : JsonArg) : Bytes :=
  if a.isString then appendDsmlParameterText a.value else appendDsmlJsonLiteral a.value

/-- What comes back of an argument. -/
def returned (a : JsonArg) : JsonArg := leafArg a.key (kindRead a.key a.isString) (valueText a)

/-- The arguments that are rendered: a text that is not read is one argument. -/
def renderedArgs (tc : ToolCall) : List JsonArg := (jsonArgsParse tc.arguments).getD [⟨lit "arguments", tc.arguments, true⟩]

theorem appendDsmlArg_eq (a : JsonArg) :
    appendDsmlArg a = paramTag a.key a.isString ++ (valueText a ++ (dsmlSyntax.paramEnd ++ [0x0a])) := by
  have hlits : lit "<｜DSML｜parameter name=\"" = lit "<｜DSML｜parameter name=" ++ [QUOTE] ∧
      lit "\" string=\"" = QUOTE :: (lit " string=" ++ [QUOTE]) ∧ lit "\">" = QUOTE :: lit ">" ∧
      lit "</｜DSML｜parameter>\n" = dsmlSyntax.paramEnd ++ [0x0a] := by decide
  unfold appendDsmlArg paramTag valueText kind
  rw [hlits.1, hlits.2.1, hlits.2.2.1, hlits.2.2.2]
  simp only [List.append_assoc, List.cons_append, List.nil_append]

/-- **A parameter** is read, with the value that was rendered. -/
theorem rendered_param (h : 0 ∉ a.key) (rest : Bytes) :
    ParamAt dsmlSyntax (appendDsmlArg a ++ rest) (returned a) (0x0a :: rest) := by
  have htag : readTag (appendDsmlArg a ++ rest) =
      some (paramTag a.key a.isString, valueText a ++ (dsmlSyntax.paramEnd ++ (0x0a :: rest))) := by
    rw [appendDsmlArg_eq, List.append_assoc, readTag_paramTag]
    simp only [List.append_assoc, List.cons_append, List.nil_append]
  have hstring := paramTag_string h a.isString
  have hno : ¬ dsmlSyntax.paramEnd <:+: valueText a := by
    have hmark : lit "</｜DSML｜parameter>" = dsmlSyntax.paramEnd := by decide
    rw [← hmark]
    unfold valueText
    split
    · exact (guards_parameter).1.close_free a.value
    · exact (guards_parameter).2.close_free a.value
  have hvalue : readValue dsmlSyntax.paramEnd (valueText a ++ (dsmlSyntax.paramEnd ++ (0x0a :: rest))) =
      some (valueText a, 0x0a :: rest) := by
    have hends : dsmlSyntax.paramEnd = dsmlSyntax.paramEnd.dropLast ++ ['>'.toUInt8] ∧
        '>'.toUInt8 ∉ dsmlSyntax.paramEnd.dropLast := by decide
    have hfind : Lib.findSub dsmlSyntax.paramEnd (valueText a ++ (dsmlSyntax.paramEnd ++ (0x0a :: rest))) =
        some (valueText a).length := by
      rw [hends.1] at hno ⊢
      exact Lib.findSub_ends hends.2 hno (0x0a :: rest)
    unfold readValue
    rw [hfind, Option.map_some, List.take_left, ← List.drop_drop, List.drop_left, List.drop_left]
  have hparam := ParamAt.leaf htag (paramTag_name h a.isString)
    (fun hnested => absurd (hstring.symm.trans hnested.1) nofun) hvalue
  rw [hstring, Option.getD_some] at hparam
  exact hparam

/-- White space in front of a marker. -/
theorem skipAsciiWs_newline (h : s.head? = some '<'.toUInt8) : skipAsciiWs (0x0a :: s) = s := by
  obtain ⟨t, rfl⟩ := List.head?_eq_some_iff.mp h
  have hspace : isspace 0x0a = true ∧ isspace '<'.toUInt8 = false := by decide
  unfold skipAsciiWs
  rw [List.dropWhile_cons_of_pos hspace.1, List.dropWhile_cons_of_neg (by rw [hspace.2]; decide)]

theorem head?_of_begins {m : Bytes} (hm : m.head? = some '<'.toUInt8) (h : m <+: s) : s.head? = some '<'.toUInt8 := by
  obtain ⟨t, rfl⟩ := h
  obtain ⟨x, rfl⟩ := List.head?_eq_some_iff.mp hm
  rfl

/-- A marker that does not stand where a longer one does. -/
theorem not_prefix_of_prefix {m w : Bytes} (hw : w <+: s) (hle : m.length ≤ w.length) (hno : ¬ m <+: w) : ¬ m <+: s :=
  fun h => hno (List.prefix_of_prefix_length_le h hw hle)

theorem prefix_appendDsmlArg (a : JsonArg) (rest : Bytes) :
    lit "<｜DSML｜parameter name=" <+: appendDsmlArg a ++ rest := by
  rw [appendDsmlArg_eq]
  unfold paramTag
  simp only [List.append_assoc]
  exact List.prefix_append _ _

/-- **The parameters** of a call. -/
theorem rendered_params (h : ∀ a ∈ as, 0 ∉ a.key) (rest : Bytes) :
    ParamsAt dsmlSyntax (0x0a :: (as.flatMap appendDsmlArg ++ (dsmlSyntax.invokeEnd ++ rest))) (as.map returned) rest := by
  have hmarks : dsmlSyntax.invokeEnd.head? = some '<'.toUInt8 ∧
      (lit "<｜DSML｜parameter name=").head? = some '<'.toUInt8 ∧
      dsmlSyntax.invokeEnd.length ≤ (lit "<｜DSML｜parameter name=").length ∧
      ¬ dsmlSyntax.invokeEnd <+: lit "<｜DSML｜parameter name=" ∧
      dsmlSyntax.paramStart <+: lit "<｜DSML｜parameter name=" := by decide
  obtain ⟨hend, hhead, hle, hno, hstart⟩ := hmarks
  induction as with
  | nil =>
    have hskip : skipAsciiWs (0x0a :: (dsmlSyntax.invokeEnd ++ rest)) = dsmlSyntax.invokeEnd ++ rest :=
      skipAsciiWs_newline (head?_of_begins hend (List.prefix_append _ _))
    have hdone : ParamsAt dsmlSyntax (0x0a :: (dsmlSyntax.invokeEnd ++ rest)) [] _ :=
      .done (by rw [hskip]; exact List.prefix_append _ _)
    rw [hskip, List.drop_left] at hdone
    exact hdone
  | cons a as ih =>
    obtain ⟨ha, has⟩ := List.forall_mem_cons.mp h
    rw [List.flatMap_cons, List.append_assoc]
    have harg := prefix_appendDsmlArg a (as.flatMap appendDsmlArg ++ (dsmlSyntax.invokeEnd ++ rest))
    have hskip := skipAsciiWs_newline (head?_of_begins hhead harg)
    refine .next ?_ ?_ ?_ (ih has)
    · rw [hskip]
      exact not_prefix_of_prefix harg hle hno
    · rw [hskip]
      exact hstart.trans harg
    · rw [hskip]
      exact rendered_param ha _

theorem appendDsmlToolCall_eq (tc : ToolCall) :
    appendDsmlToolCall tc = invokeTag tc.name ++
      (0x0a :: ((renderedArgs tc).flatMap appendDsmlArg ++ (dsmlSyntax.invokeEnd ++ [0x0a]))) := by
  have hlits : lit "<｜DSML｜invoke name=\"" = lit "<｜DSML｜invoke name=" ++ [QUOTE] ∧
      lit "\">\n" = QUOTE :: (lit ">" ++ [0x0a]) ∧ lit "</｜DSML｜invoke>\n" = dsmlSyntax.invokeEnd ++ [0x0a] := by
    decide
  have hfallback : lit "<｜DSML｜parameter name=\"arguments\" string=\"true\">" = paramTag (lit "arguments") true ∧
      lit "</｜DSML｜parameter>\n" = dsmlSyntax.paramEnd ++ [0x0a] := by decide
  unfold appendDsmlToolCall renderedArgs appendDsmlArgumentsFromJson
  rw [hlits.1, hlits.2.1, hlits.2.2]
  unfold invokeTag
  cases jsonArgsParse tc.arguments with
  | none =>
    have harg := appendDsmlArg_eq ⟨lit "arguments", tc.arguments, true⟩
    rw [Option.getD_none, List.flatMap_singleton, harg, hfallback.1, hfallback.2]
    unfold valueText
    simp only [Option.map_none, List.append_assoc, List.cons_append, List.nil_append, if_true]
  | some as => simp only [Option.map_some, Option.getD_some, List.append_assoc, List.cons_append, List.nil_append]

/-- **A call** is read, with what comes back of its arguments. -/
theorem rendered_call (hname : 0 ∉ tc.name) (hkeys : ∀ a ∈ renderedArgs tc, 0 ∉ a.key) (rest : Bytes) :
    InvokeAt dsmlSyntax (appendDsmlToolCall tc ++ rest) (tc.name, (renderedArgs tc).map returned) (0x0a :: rest) := by
  have hstart : dsmlSyntax.invokeStart <+: lit "<｜DSML｜invoke name=" := by decide
  have htext : appendDsmlToolCall tc ++ rest = invokeTag tc.name ++
      (0x0a :: ((renderedArgs tc).flatMap appendDsmlArg ++ (dsmlSyntax.invokeEnd ++ (0x0a :: rest)))) := by
    rw [appendDsmlToolCall_eq]
    simp only [List.append_assoc, List.cons_append, List.nil_append]
  refine ⟨?_, invokeTag tc.name, _, ?_, invokeTag_name hname, rendered_params hkeys _⟩
  · rw [htext]
    unfold invokeTag
    rw [List.append_assoc]
    exact hstart.trans (List.prefix_append _ _)
  · rw [htext]
    exact readTag_invokeTag tc.name _

/-- Calls as C strings hold them. -/
def NulFreeCalls (calls : List ToolCall) : Prop := ∀ tc ∈ calls, 0 ∉ tc.name ∧ 0 ∉ tc.arguments

theorem renderedArgs_keys (tc : ToolCall) : ∀ a ∈ renderedArgs tc, 0 ∉ a.key := by
  have hlit : 0 ∉ lit "arguments" := by decide
  unfold renderedArgs
  cases hargs : jsonArgsParse tc.arguments with
  | none =>
    intro a ha
    rw [List.mem_singleton.mp ha]
    exact hlit
  | some as => exact fun a ha => (jsonArgsParse_normal hargs a ha).1.key

/-- What comes back of a call. -/
def returnedCall (tc : ToolCall) : Bytes × List JsonArg := (tc.name, (renderedArgs tc).map returned)

/-- **The calls** of a block. -/
theorem rendered_calls (h : ∀ tc ∈ calls, 0 ∉ tc.name) (rest : Bytes) :
    CallsAt dsmlSyntax (0x0a :: (calls.flatMap appendDsmlToolCall ++ (dsmlSyntax.toolCallsEnd ++ rest)))
      (calls.map returnedCall) rest := by
  have hmarks : dsmlSyntax.toolCallsEnd.head? = some '<'.toUInt8 ∧
      (lit "<｜DSML｜invoke name=").head? = some '<'.toUInt8 ∧
      ¬ dsmlSyntax.toolCallsEnd.take 2 <+: lit "<｜DSML｜invoke name=" := by decide
  obtain ⟨hend, hhead, hno⟩ := hmarks
  induction calls with
  | nil =>
    have hskip : skipAsciiWs (0x0a :: (dsmlSyntax.toolCallsEnd ++ rest)) = dsmlSyntax.toolCallsEnd ++ rest :=
      skipAsciiWs_newline (head?_of_begins hend (List.prefix_append _ _))
    have hdone : CallsAt dsmlSyntax (0x0a :: (dsmlSyntax.toolCallsEnd ++ rest)) [] _ :=
      .done (by rw [hskip]; exact List.prefix_append _ _)
    rw [hskip, List.drop_left] at hdone
    exact hdone
  | cons tc calls ih =>
    obtain ⟨htc, hcalls⟩ := List.forall_mem_cons.mp h
    rw [List.flatMap_cons, List.append_assoc]
    have hcall := rendered_call htc (renderedArgs_keys tc)
      (calls.flatMap appendDsmlToolCall ++ (dsmlSyntax.toolCallsEnd ++ rest))
    have hopen : lit "<｜DSML｜invoke name=" <+:
        appendDsmlToolCall tc ++ (calls.flatMap appendDsmlToolCall ++ (dsmlSyntax.toolCallsEnd ++ rest)) := by
      rw [appendDsmlToolCall_eq]
      unfold invokeTag
      simp only [List.append_assoc]
      exact List.prefix_append _ _
    have hskip := skipAsciiWs_newline (head?_of_begins hhead hopen)
    refine .next ?_ ?_ (ih hcalls)
    · rw [hskip]
      intro hat
      exact not_prefix_of_prefix hopen (by decide) hno ((List.take_prefix _ _).trans hat)
    · rw [hskip]
      exact hcall

end DS4.Server
