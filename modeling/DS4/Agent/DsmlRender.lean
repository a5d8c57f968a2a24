import DS4.Agent.DsmlBlocks

namespace DS4.Agent.Dsml

/-!
# Agent — calls that are written as the prompt asks

* `render` — the text of some calls, and `pieces` — its pieces.
* `parseAttr_here`, `parseAttr_later` — an attribute is read up to the next quote.
* `render_hasBlock` — the text is a block; `pieces_nested`, `pieces_intended` — and what it says.
* `agent_dsml_loses_nothing_iff` — when the parser loses nothing.
-/

open DS4.Tokenizer DS4.Lib

/-! ### Rendering -/

def QUOTE : UInt8 := '"'.toUInt8

def INVOKE_TAG : Bytes := lit "<｜DSML｜invoke name="

def PARAM_TAG : Bytes := lit "<｜DSML｜parameter name="

def kind (isString : Bool) : Bytes := if isString then lit "true" else lit "false"

/-- An opening tag with the name of a call. -/
def invokeTag (name : Bytes) : Bytes := INVOKE_TAG ++ QUOTE :: (name ++ QUOTE :: lit ">")

/-- An opening tag with the name and the kind of a parameter. -/
def paramTag (name : Bytes) (isString : Bool) : Bytes :=
  PARAM_TAG ++ QUOTE :: (name ++ QUOTE :: (lit " string=" ++ QUOTE :: (kind isString ++ QUOTE :: lit ">")))

/-- A parameter as the prompt asks for it. -/
def ToolArg.render (a : ToolArg) : Bytes :=
  paramTag a.name a.isString ++ a.value ++ lit "</｜DSML｜parameter>" ++ lit "\n"

def ToolCall.render (call : ToolCall) : Bytes :=
  invokeTag (call.name.getD []) ++ lit "\n" ++ call.args.flatMap ToolArg.render ++ lit "</｜DSML｜invoke>" ++ lit "\n"

def render (calls : List ToolCall) : Bytes :=
  START ++ lit "\n" ++ calls.flatMap ToolCall.render ++ lit "</｜DSML｜tool_calls>"

def ToolArg.pieces (a : ToolArg) : List Piece :=
  [.param (paramTag a.name a.isString), .value a.value (lit "</｜DSML｜parameter>"), .blank 0x0a]

def ToolCall.pieces (call : ToolCall) : List Piece :=
  [.invoke (invokeTag (call.name.getD [])), .blank 0x0a] ++ call.args.flatMap ToolArg.pieces ++
    [.invokeEnd (lit "</｜DSML｜invoke>"), .blank 0x0a]

def pieces (calls : List ToolCall) : List Piece :=
  [.blank 0x0a] ++ calls.flatMap ToolCall.pieces ++ [.blockEnd (lit "</｜DSML｜tool_calls>")]

/-- A name that an attribute can hold. -/
def PlainName (name : Bytes) : Prop := QUOTE ∉ name ∧ '>'.toUInt8 ∉ name ∧ 0 ∉ name

/-- A value without an accepted spelling of its closing tag. -/
def PlainValue (v : Bytes) : Prop := 0 ∉ v ∧ ∀ t, Spelling (lit "parameter") t → ¬ t <:+: v

def ToolArg.Plain (a : ToolArg) : Prop := PlainName a.name ∧ PlainValue a.value

def ToolCall.Plain (call : ToolCall) : Prop :=
  (∃ name, call.name = some name ∧ PlainName name) ∧ ∀ a ∈ call.args, a.Plain

/-- A parameter as it is read; a name that ends as the other attribute does hides the kind. -/
def ToolArg.readBack (a : ToolArg) : ToolArg :=
  { a with isString := a.isString && !(lit "string=").isSuffixOf a.name }

def ToolCall.readBack (call : ToolCall) : ToolCall := { call with args := call.args.map ToolArg.readBack }

variable {s t v attr name : Bytes}

/-! ### Attributes -/

theorem cstr_self (h : 0 ∉ s) : cstr s = s :=
  List.takeWhile_eq_self_iff.mpr fun _ hc => decide_eq_true fun heq => h (heq ▸ hc)

theorem attr_pattern (attr : Bytes) : attr ++ lit "=\"" = (attr ++ lit "=") ++ [QUOTE] := by
  rw [List.append_assoc]
  rfl

theorem quote_notMem_pattern (h : QUOTE ∉ attr) : QUOTE ∉ attr ++ lit "=" := fun hmem =>
  (List.mem_append.mp hmem).elim h (by decide)

/-- An attribute in front of the first quote. -/
theorem parseAttr_here (hattr : QUOTE ∉ attr) (hs : QUOTE ∉ s) (hv : QUOTE ∉ v)
    (hzero : 0 ∉ s ++ QUOTE :: (v ++ QUOTE :: t)) (hsuffix : attr ++ lit "=" <:+ s) :
    parseAttr (s ++ QUOTE :: (v ++ QUOTE :: t)) attr = some v := by
  have hzero' : 0 ∉ v ++ QUOTE :: t := fun hmem => hzero (List.mem_append_right s (List.mem_cons_of_mem _ hmem))
  have hle := hsuffix.length_le
  have hlen : ∀ u : Bytes, u.length ≤ s.length → s.length - u.length + (u ++ [QUOTE]).length = s.length + 1 := by
    intro u hu
    rw [List.length_append, List.length_singleton]
    omega
  have hdrop : (s ++ QUOTE :: (v ++ QUOTE :: t)).drop (s.length + 1) = v ++ QUOTE :: t := by
    rw [← List.drop_drop, List.drop_left]
    rfl
  have hend : strstr (v ++ QUOTE :: t) (lit "\"") = some v.length := by
    unfold strstr
    rw [cstr_self hzero']
    exact (findSub_singleton_iff).mpr ⟨v, t, rfl, hv, rfl⟩
  unfold parseAttr
  rw [attr_pattern]
  have hfind : strstr (s ++ QUOTE :: (v ++ QUOTE :: t)) (attr ++ lit "=" ++ [QUOTE]) =
      some (s.length - (attr ++ lit "=").length) := by
    unfold strstr
    rw [cstr_self hzero, findSub_stop (quote_notMem_pattern hattr) hs,
      if_pos (List.isSuffixOf_iff_suffix.mpr hsuffix)]
  rw [hfind]
  dsimp only
  rw [hlen _ hle, hdrop, hend]
  dsimp only
  rw [List.take_left]

/-- An attribute behind the first quote. -/
theorem parseAttr_later (hattr : QUOTE ∉ attr) (hs : QUOTE ∉ s) (hzero : 0 ∉ s ++ QUOTE :: t)
    (hsuffix : ¬ attr ++ lit "=" <:+ s) : parseAttr (s ++ QUOTE :: t) attr = parseAttr t attr := by
  have hzero' : 0 ∉ t := fun hmem => hzero (List.mem_append_right s (List.mem_cons_of_mem _ hmem))
  have hno : ¬ (attr ++ lit "=").isSuffixOf s = true := fun h => hsuffix (List.isSuffixOf_iff_suffix.mp h)
  have hdrop : ∀ k, (s ++ QUOTE :: t).drop (s.length + 1 + k) = t.drop k := by
    intro k
    rw [Nat.add_assoc, ← List.drop_drop, List.drop_left, Nat.add_comm 1 k]
    rfl
  unfold parseAttr strstr
  rw [attr_pattern, cstr_self hzero, cstr_self hzero', findSub_stop (quote_notMem_pattern hattr) hs, if_neg hno]
  cases findSub (attr ++ lit "=" ++ [QUOTE]) t with
  | none => rfl
  | some i =>
    dsimp only [Option.map_some]
    rw [Nat.add_assoc, hdrop]

/-! ### Tags -/

theorem zero_notMem_kind (b : Bool) : 0 ∉ kind b := by
  cases b <;> decide

theorem quote_notMem_kind (b : Bool) : QUOTE ∉ kind b := by
  cases b <;> decide

theorem gt_notMem_kind (b : Bool) : '>'.toUInt8 ∉ kind b := by
  cases b <;> decide

/-- Words and names, and quotes around them. -/
theorem notMem_quoted {c : UInt8} (hc : c ≠ QUOTE) {x y : Bytes} (hx : c ∉ x) (hy : c ∉ y) : c ∉ x ++ QUOTE :: y :=
  fun hmem => (List.mem_append.mp hmem).elim hx fun hmem => (List.mem_cons.mp hmem).elim hc hy

theorem invokeTag_name (h : PlainName name) : parseAttr (invokeTag name) (lit "name") = some name := by
  refine parseAttr_here (by decide) (by decide) h.1 ?_ ?_
  · exact notMem_quoted (by decide) (by decide) (notMem_quoted (by decide) h.2.2 (by decide))
  · exact List.isSuffixOf_iff_suffix.mp (by decide)

theorem invokeTag_oneTag (h : PlainName name) : OneTag (invokeTag name) := by
  refine ⟨INVOKE_TAG ++ QUOTE :: (name ++ [QUOTE]), ?_, ?_, ?_⟩
  · unfold invokeTag
    rw [List.append_assoc, List.cons_append, List.append_assoc]
    rfl
  · exact notMem_quoted (by decide) (by decide) (notMem_quoted (by decide) h.2.1 List.not_mem_nil)
  · exact notMem_quoted (by decide) (by decide) (notMem_quoted (by decide) h.2.2 List.not_mem_nil)

theorem paramTag_zero (h : PlainName name) (b : Bool) :
    0 ∉ name ++ QUOTE :: (lit " string=" ++ QUOTE :: (kind b ++ QUOTE :: lit ">")) :=
  notMem_quoted (by decide) h.2.2
    (notMem_quoted (by decide) (by decide) (notMem_quoted (by decide) (zero_notMem_kind b) (by decide)))

theorem paramTag_name (h : PlainName name) (b : Bool) : parseAttr (paramTag name b) (lit "name") = some name := by
  refine parseAttr_here (by decide) (by decide) h.1 ?_ ?_
  · exact notMem_quoted (by decide) (by decide) (paramTag_zero h b)
  · exact List.isSuffixOf_iff_suffix.mp (by decide)

/-- **The kind** of a parameter is read, unless its name ends as the attribute does. -/
theorem paramTag_string (h : PlainName name) (b : Bool) :
    decide (parseAttr (paramTag name b) (lit "string") = some (lit "true")) =
      (b && !(lit "string=").isSuffixOf name) := by
  have hzero := paramTag_zero h b
  have hattr : QUOTE ∉ lit "string" := by decide
  have hpattern : lit "string" ++ lit "=" = lit "string=" := by decide
  have hfirst : ¬ lit "string" ++ lit "=" <:+ PARAM_TAG := fun hsuffix =>
    absurd (List.isSuffixOf_iff_suffix.mpr hsuffix) (by decide)
  unfold paramTag
  rw [parseAttr_later hattr (by decide) (notMem_quoted (by decide) (by decide) hzero) hfirst]
  by_cases hname : (lit "string=").isSuffixOf name = true
  · -- what stands between the name and the kind is read
    have hsuffix : lit "string" ++ lit "=" <:+ name := hpattern ▸ List.isSuffixOf_iff_suffix.mp hname
    rw [parseAttr_here hattr h.1 (by decide) hzero hsuffix, hname, Bool.not_true, Bool.and_false]
    decide
  · have hsuffix : ¬ lit "string" ++ lit "=" <:+ name := fun hsuffix =>
      hname (List.isSuffixOf_iff_suffix.mpr (hpattern ▸ hsuffix))
    have hzero' : 0 ∉ lit " string=" ++ QUOTE :: (kind b ++ QUOTE :: lit ">") := fun hmem =>
      hzero (List.mem_append_right name (List.mem_cons_of_mem _ hmem))
    have hlast : lit "string" ++ lit "=" <:+ lit " string=" := List.isSuffixOf_iff_suffix.mp (by decide)
    rw [parseAttr_later hattr h.1 hzero hsuffix, parseAttr_here hattr (by decide) (quote_notMem_kind b) hzero' hlast,
      Bool.eq_false_iff.mpr hname, Bool.not_false, Bool.and_true]
    cases b <;> decide

theorem paramTag_oneTag (h : PlainName name) (b : Bool) : OneTag (paramTag name b) := by
  refine ⟨PARAM_TAG ++ QUOTE :: (name ++ QUOTE :: (lit " string=" ++ QUOTE :: (kind b ++ [QUOTE]))), ?_, ?_, ?_⟩
  · unfold paramTag
    simp only [List.append_assoc, List.cons_append]
    rfl
  · exact notMem_quoted (by decide) (by decide) (notMem_quoted (by decide) h.2.1
      (notMem_quoted (by decide) (by decide) (notMem_quoted (by decide) (gt_notMem_kind b) List.not_mem_nil)))
  · exact notMem_quoted (by decide) (by decide) (notMem_quoted (by decide) h.2.2
      (notMem_quoted (by decide) (by decide) (notMem_quoted (by decide) (zero_notMem_kind b) List.not_mem_nil)))

/-- **A value** ends where its closing tag is written. -/
theorem plainValue_ok (h : PlainValue v) : (Piece.value v (lit "</｜DSML｜parameter>")).Ok := by
  have hend : lit "</｜DSML｜parameter>" = CLOSE ++ lit "parameter" ++ ['>'.toUInt8] := by decide
  have hzero : 0 ∉ v ++ lit "</｜DSML｜parameter>" := fun hmem => (List.mem_append.mp hmem).elim h.1 (by decide)
  -- no spelling starts in the value: it would end in it, or hold a second `<`
  have hnone : ∀ j < v.length, closeTagAt ((v ++ lit "</｜DSML｜parameter>").drop j) (lit "parameter") = none := by
    intro j hj
    cases hc : closeTagAt ((v ++ lit "</｜DSML｜parameter>").drop j) (lit "parameter") with
    | none => rfl
    | some n =>
      obtain ⟨t, r, heq, ht, -⟩ := (closeTagAt_iff).mp hc
      rw [List.drop_append_of_le_length (Nat.le_of_lt hj)] at heq
      obtain ⟨a, ha, hr⟩ | ⟨a, ha, hr⟩ := List.append_eq_append_iff.mp heq
      · -- the tag ends behind the value
        cases a with
        | nil =>
          refine absurd ?_ (h.2 t ht)
          rw [ha, List.append_nil]
          exact (List.drop_suffix j v).isInfix
        | cons c a =>
          obtain ⟨u, hu, hlt⟩ := ht.lt (by decide)
          have hc' : c = '<'.toUInt8 := by
            rw [hend] at hr
            exact (List.cons.inj hr).1.symm
          obtain ⟨d, w, hd⟩ : ∃ d w, v.drop j = d :: w := by
            refine List.exists_cons_of_ne_nil fun hnil => ?_
            have hlen := congrArg List.length hnil
            rw [List.length_drop, List.length_nil] at hlen
            omega
          rw [hd, hu, List.cons_append] at ha
          refine absurd ?_ hlt
          rw [(List.cons.inj ha).2, hc']
          exact List.mem_append_right w List.mem_cons_self
      · refine absurd ?_ (h.2 t ht)
        exact List.IsInfix.trans ⟨[], a, by rw [List.nil_append]; exact ha.symm⟩ (List.drop_suffix j v).isInfix
  show findCloseTag _ _ = some (v.length, _)
  rw [findCloseTag_eq (by decide), cstr_self hzero, firstClose_skip hnone (by rw [List.length_append]; omega),
    List.drop_left]
  have hhead : firstClose (lit "parameter") (lit "</｜DSML｜parameter>") =
      some (0, (lit "</｜DSML｜parameter>").length) := by decide
  rw [hhead]
  rfl

/-! ### What is written is a block -/

theorem texts_append (ps qs : List Piece) : texts (ps ++ qs) = texts ps ++ texts qs := List.flatMap_append

theorem texts_flatMap {α : Type} (f : α → List Piece) (g : α → Bytes) (h : ∀ a, texts (f a) = g a) (l : List α) :
    texts (l.flatMap f) = l.flatMap g := by
  unfold texts at h ⊢
  rw [List.flatMap_assoc]
  exact congrArg (l.flatMap ·) (funext h)

theorem arg_texts (a : ToolArg) : texts a.pieces = a.render := by
  show paramTag a.name a.isString ++ (a.value ++ lit "</｜DSML｜parameter>" ++ ([0x0a] ++ [])) = _
  unfold ToolArg.render
  rw [List.append_nil, List.append_assoc, List.append_assoc, List.append_assoc]
  rfl

theorem call_texts (call : ToolCall) : texts call.pieces = call.render := by
  unfold ToolCall.pieces ToolCall.render
  rw [texts_append, texts_append, texts_flatMap _ _ arg_texts, List.append_assoc _ (lit "</｜DSML｜invoke>")]
  rfl

theorem pieces_texts (calls : List ToolCall) : render calls = START ++ texts (pieces calls) := by
  unfold pieces render
  rw [texts_append, texts_append, texts_flatMap _ _ call_texts, List.append_assoc, List.append_assoc]
  show START ++ (_ ++ (_ ++ _)) = START ++ (_ ++ _ ++ (_ ++ []))
  rw [List.append_nil, List.append_assoc]
  rfl

/-- What each part leaves as it is, all of them leave. -/
theorem foldlM_flatMap {α β σ : Type} {f : σ → β → Option σ} {g : α → List β} {st : σ} {l : List α}
    (h : ∀ a ∈ l, (g a).foldlM f st = some st) : (l.flatMap g).foldlM f st = some st := by
  induction l with
  | nil => rfl
  | cons a l ih =>
    rw [List.flatMap_cons, List.foldlM_append, h a List.mem_cons_self]
    exact ih fun b hb => h b (List.mem_cons_of_mem a hb)

theorem call_next (call : ToolCall) : call.pieces.foldlM next .structural = some .structural := by
  have hargs : (call.args.flatMap ToolArg.pieces).foldlM next .structural = some .structural :=
    foldlM_flatMap fun _ _ => rfl
  unfold ToolCall.pieces
  rw [List.foldlM_append, List.foldlM_append]
  show ((call.args.flatMap ToolArg.pieces).foldlM next .structural).bind _ = _
  rw [hargs]
  rfl

theorem pieces_next (calls : List ToolCall) : (pieces calls).foldlM next .structural = some .done := by
  have hcalls : (calls.flatMap ToolCall.pieces).foldlM next .structural = some .structural :=
    foldlM_flatMap fun call _ => call_next call
  unfold pieces
  rw [List.foldlM_append, List.foldlM_append]
  show ((calls.flatMap ToolCall.pieces).foldlM next .structural).bind _ = _
  rw [hcalls]
  rfl

theorem spelling_self (name : Bytes) : Spelling name (CLOSE ++ name ++ ['>'.toUInt8]) :=
  ⟨[], [], [], nofun, Or.inl rfl, nofun, by rw [List.append_nil, List.append_nil, List.append_nil]⟩

theorem newline_ok : (Piece.blank 0x0a).Ok := show isBlank 0x0a = true by decide

theorem arg_ok {a : ToolArg} (h : a.Plain) : ∀ x ∈ a.pieces, x.Ok := by
  obtain ⟨hname, hvalue⟩ := h
  have hpre : PARAM_START <+: paramTag a.name a.isString :=
    (List.isPrefixOf_iff_prefix.mp (by decide) : PARAM_START <+: PARAM_TAG).trans (List.prefix_append _ _)
  have htag : (Piece.param (paramTag a.name a.isString)).Ok :=
    ⟨hpre, paramTag_oneTag hname _, by rw [paramTag_name hname]; rfl⟩
  intro x hx
  rcases List.mem_cons.mp hx with rfl | hx
  · exact htag
  rcases List.mem_cons.mp hx with rfl | hx
  · exact plainValue_ok hvalue
  · exact List.mem_singleton.mp hx ▸ newline_ok

theorem call_ok {call : ToolCall} (h : call.Plain) : ∀ x ∈ call.pieces, x.Ok := by
  obtain ⟨⟨name, hname, hplain⟩, hargs⟩ := h
  have hpre : INVOKE_START <+: invokeTag name :=
    (List.isPrefixOf_iff_prefix.mp (by decide) : INVOKE_START <+: INVOKE_TAG).trans (List.prefix_append _ _)
  have htag : (Piece.invoke (invokeTag (call.name.getD []))).Ok := by
    rw [hname]
    exact ⟨hpre, invokeTag_oneTag hplain, by rw [Option.getD_some, invokeTag_name hplain]; rfl⟩
  have hend : (Piece.invokeEnd (lit "</｜DSML｜invoke>")).Ok := spelling_self (lit "invoke")
  unfold ToolCall.pieces
  refine List.forall_mem_append.mpr ⟨List.forall_mem_append.mpr ⟨?_, ?_⟩, ?_⟩
  · exact List.forall_mem_cons.mpr ⟨htag, List.forall_mem_singleton.mpr newline_ok⟩
  · intro x hx
    obtain ⟨a, ha, hx⟩ := List.mem_flatMap.mp hx
    exact arg_ok (hargs a ha) x hx
  · exact List.forall_mem_cons.mpr ⟨hend, List.forall_mem_singleton.mpr newline_ok⟩

/-- **The text** of some calls is a block. -/
theorem render_hasBlock {calls : List ToolCall} (h : ∀ call ∈ calls, call.Plain) :
    HasBlock (render calls) (pieces calls) := by
  have hend : (Piece.blockEnd (lit "</｜DSML｜tool_calls>")).Ok := spelling_self (lit "tool_calls")
  refine ⟨[], [], ?_, ?_, ?_, pieces_next calls⟩
  · rw [pieces_texts, List.append_nil]
    rfl
  · rw [pieces_texts]
    exact (findSub_eq_some_iff).mpr ⟨Nat.zero_le _, List.prefix_append _ _, nofun⟩
  · unfold pieces
    refine List.forall_mem_append.mpr ⟨List.forall_mem_append.mpr ⟨?_, ?_⟩, List.forall_mem_singleton.mpr hend⟩
    · exact List.forall_mem_singleton.mpr newline_ok
    · intro x hx
      obtain ⟨call, hcall, hx⟩ := List.mem_flatMap.mp hx
      exact call_ok (h call hcall) x hx

/-! ### What it says -/

theorem call_nested (call : ToolCall) : call.pieces.foldlM nest false = some false := by
  have hargs : (call.args.flatMap ToolArg.pieces).foldlM nest true = some true := foldlM_flatMap fun _ _ => rfl
  unfold ToolCall.pieces
  rw [List.foldlM_append, List.foldlM_append]
  show ((call.args.flatMap ToolArg.pieces).foldlM nest true).bind _ = _
  rw [hargs]
  rfl

theorem pieces_nested (calls : List ToolCall) : Nested (pieces calls) := by
  have hcalls : (calls.flatMap ToolCall.pieces).foldlM nest false = some false :=
    foldlM_flatMap fun call _ => call_nested call
  unfold Nested pieces
  rw [List.foldlM_append, List.foldlM_append]
  show (((calls.flatMap ToolCall.pieces).foldlM nest false).bind _).isSome = true
  rw [hcalls]
  rfl

/-- Parameters are read in order. -/
theorem args_meaning {args : List ToolArg} (h : ∀ a ∈ args, a.Plain) (calls : List ToolCall) (call : ToolCall)
    (name : Bytes) (isString : Bool) :
    ∃ name' isString', (args.flatMap ToolArg.pieces).foldlM Meaning.read ⟨calls ++ [call], true, name, isString⟩ =
      some ⟨calls ++ [{ call with args := call.args ++ args.map ToolArg.readBack }], true, name', isString'⟩ := by
  induction args generalizing call name isString with
  | nil => exact ⟨name, isString, by rw [List.map_nil, List.append_nil]; rfl⟩
  | cons a args ih =>
    obtain ⟨hname, -⟩ := h a List.mem_cons_self
    have harg : a.pieces.foldlM Meaning.read ⟨calls ++ [call], true, name, isString⟩ =
        some ⟨calls ++ [call.addArg a.readBack], true, a.name, a.readBack.isString⟩ := by
      show some (Meaning.mk (addLast ⟨(parseAttr (paramTag a.name a.isString) (lit "name")).getD [], a.value,
        decide (parseAttr (paramTag a.name a.isString) (lit "string") = some (lit "true"))⟩ (calls ++ [call])) true
        ((parseAttr (paramTag a.name a.isString) (lit "name")).getD [])
        (decide (parseAttr (paramTag a.name a.isString) (lit "string") = some (lit "true")))) = _
      rw [paramTag_name hname, paramTag_string hname, addLast_append]
      rfl
    obtain ⟨name', isString', hrest⟩ := @ih (fun b hb => h b (List.mem_cons_of_mem a hb)) (call.addArg a.readBack)
      a.name a.readBack.isString
    refine ⟨name', isString', ?_⟩
    rw [List.flatMap_cons, List.foldlM_append, harg]
    refine hrest.trans ?_
    show some (Meaning.mk (calls ++ [⟨call.name, call.args ++ [a.readBack] ++ args.map ToolArg.readBack⟩]) true _ _) = _
    rw [List.append_assoc]
    rfl

theorem call_meaning {call : ToolCall} (h : call.Plain) (calls : List ToolCall) (name : Bytes) (isString : Bool) :
    ∃ name' isString', call.pieces.foldlM Meaning.read ⟨calls, false, name, isString⟩ =
      some ⟨calls ++ [call.readBack], false, name', isString'⟩ := by
  obtain ⟨⟨n, hn, hplain⟩, hargs⟩ := h
  obtain ⟨name', isString', hread⟩ := args_meaning hargs calls ⟨call.name, []⟩ name isString
  have hopen : (Meaning.mk calls false name isString).read (.invoke (invokeTag (call.name.getD []))) =
      some ⟨calls ++ [⟨call.name, []⟩], true, name, isString⟩ := by
    show some (Meaning.mk (calls ++ [⟨parseAttr (invokeTag (call.name.getD [])) (lit "name"), []⟩]) true name
      isString) = _
    rw [hn, Option.getD_some, invokeTag_name hplain]
  refine ⟨name', isString', ?_⟩
  unfold ToolCall.pieces
  rw [List.foldlM_append, List.foldlM_append, List.foldlM_cons, hopen]
  show ((call.args.flatMap ToolArg.pieces).foldlM Meaning.read _).bind _ = _
  rw [hread]
  rfl

theorem calls_meaning {calls : List ToolCall} (h : ∀ call ∈ calls, call.Plain) (done : List ToolCall) (name : Bytes)
    (isString : Bool) :
    ∃ name' isString', (calls.flatMap ToolCall.pieces).foldlM Meaning.read ⟨done, false, name, isString⟩ =
      some ⟨done ++ calls.map ToolCall.readBack, false, name', isString'⟩ := by
  induction calls generalizing done name isString with
  | nil => exact ⟨name, isString, by rw [List.map_nil, List.append_nil]; rfl⟩
  | cons call calls ih =>
    obtain ⟨name₁, isString₁, hcall⟩ := call_meaning (h call List.mem_cons_self) done name isString
    obtain ⟨name₂, isString₂, hrest⟩ := @ih (fun c hc => h c (List.mem_cons_of_mem call hc)) (done ++ [call.readBack])
      name₁ isString₁
    refine ⟨name₂, isString₂, ?_⟩
    rw [List.flatMap_cons, List.foldlM_append, hcall]
    refine hrest.trans ?_
    rw [List.append_assoc]
    rfl

/-- **What the text says**: the calls, but for the kinds that are not read. -/
theorem pieces_intended {calls : List ToolCall} (h : ∀ call ∈ calls, call.Plain) :
    intended (pieces calls) = some (calls.map ToolCall.readBack) := by
  obtain ⟨name, isString, hcalls⟩ := calls_meaning h [] [] false
  unfold intended meaning pieces
  rw [List.foldlM_append, List.foldlM_append]
  show (((calls.flatMap ToolCall.pieces).foldlM Meaning.read ⟨[], false, [], false⟩).bind _).map _ = _
  rw [hcalls]
  rfl

/-- A kind is read, or it was not `true`. -/
theorem readBack_eq_iff (calls : List ToolCall) :
    calls.map ToolCall.readBack = calls ↔
      ∀ call ∈ calls, ∀ a ∈ call.args, a.isString = true → ¬ lit "string=" <:+ a.name := by
  have harg : ∀ a : ToolArg, a.readBack = a ↔ (a.isString = true → ¬ lit "string=" <:+ a.name) := by
    rintro ⟨name, value, isString⟩
    unfold ToolArg.readBack
    rw [ToolArg.mk.injEq]
    cases isString <;> simp [← List.isSuffixOf_iff_suffix]
  have hmap : ∀ {α : Type} (f : α → α) (l : List α), l.map f = l ↔ ∀ a ∈ l, f a = a := by
    intro α f l
    conv_lhs => rhs; rw [← List.map_id l]
    exact List.map_inj_left
  have hcall : ∀ call : ToolCall, call.readBack = call ↔ ∀ a ∈ call.args, a.readBack = a := by
    rintro ⟨name, args⟩
    unfold ToolCall.readBack
    rw [ToolCall.mk.injEq]
    exact (and_iff_right rfl).trans (hmap _ _)
  rw [hmap]
  refine forall₂_congr fun call _ => (hcall call).trans ?_
  exact forall₂_congr fun a _ => harg a

/-- **A list of calls** that is fed as it is written. -/
theorem render_read {calls : List ToolCall} (h : ∀ call ∈ calls, call.Plain) {feeds : List Bytes}
    (hfeeds : feeds.flatten = render calls) :
    (fed feeds).state = .done ∧ (fed feeds).calls = calls.map ToolCall.readBack := by
  have hblock := render_hasBlock h
  rw [← hfeeds] at hblock
  refine ⟨(fed_of_block hblock).1, ?_⟩
  have hall := (calls_iff hblock).mpr (pieces_nested calls)
  exact (Option.some.inj ((pieces_intended h).symm.trans hall)).symm

/-- **Nothing is lost** exactly where the tags of a block are nested, and what is written is read back exactly where
    no name hides a kind. -/
theorem agent_dsml_loses_nothing_iff (feeds : List Bytes) :
    ((fed feeds).step = none ∧
      ((fed feeds).state = .done ∨ (fed feeds).state = .error → ∀ s, agentDsmlFeed (fed feeds) s = fed feeds)) ∧
    ((fed feeds).state = .done ↔ ∃ ps, HasBlock feeds.flatten ps) ∧
    (∀ ps, HasBlock feeds.flatten ps → (intended ps = some (fed feeds).calls ↔ Nested ps)) ∧
    (∀ calls, (∀ call ∈ calls, call.Plain) → feeds.flatten = render calls →
      ((fed feeds).state = .done ∧ (fed feeds).calls = calls ↔
        ∀ call ∈ calls, ∀ a ∈ call.args, a.isString = true → ¬ lit "string=" <:+ a.name)) := by
  refine ⟨⟨fed_stuck feeds, fun h s => feed_absorbed h s⟩, done_iff feeds, fun ps => calls_iff, ?_⟩
  intro calls hplain hfeeds
  obtain ⟨hdone, hcalls⟩ := render_read hplain hfeeds
  rw [hcalls, ← readBack_eq_iff]
  exact and_iff_right hdone

theorem agent_dsml_loses_nothing_iff_sample :
    let calls : List ToolCall := [⟨some (lit "ls"), [⟨lit "path", lit "src", true⟩]⟩]
    (fed [render calls]).state = .done ∧ (fed [render calls]).calls = calls := by
  intro calls
  have hvalue : PlainValue (lit "src") := by
    refine ⟨by decide, fun t ht hinf => ?_⟩
    obtain ⟨u, rfl, -⟩ := ht.lt (by decide)
    exact absurd (hinf.subset List.mem_cons_self) (by decide)
  have harg : ToolArg.Plain ⟨lit "path", lit "src", true⟩ :=
    ⟨⟨by decide, by decide, by decide⟩, hvalue⟩
  have hcall : ToolCall.Plain ⟨some (lit "ls"), [⟨lit "path", lit "src", true⟩]⟩ :=
    ⟨⟨lit "ls", rfl, by decide, by decide, by decide⟩, List.forall_mem_singleton.mpr harg⟩
  exact ((agent_dsml_loses_nothing_iff [render calls]).2.2.2 calls (List.forall_mem_singleton.mpr hcall)
    (List.append_nil _)).mpr (by decide)

/-- A call that is opened in a call takes its place. -/
theorem agent_dsml_drops_call :
    let p := fed [START ++ lit "<｜DSML｜invoke name=\"a\"><｜DSML｜invoke name=\"b\"></｜DSML｜tool_calls>"]
    p.state = .done ∧ p.calls = [⟨some (lit "b"), []⟩] ∧
      intended p.consumed = some [⟨some (lit "a"), []⟩, ⟨some (lit "b"), []⟩] := by
  decide +kernel

end DS4.Agent.Dsml
