import DS4.Server.FinalParse

namespace DS4.Server

/-!
# Server — what a block of tool calls is

The final parser builds the arguments of a call as a text. Here a block is read as a list of calls with
a list of arguments each, and the text is what these arguments look like.

* `leafArg`, `argText`, `argsText` — an argument, and the text of several.
* `LeafAt`, `LeavesAt`, `ParamAt`, `ParamsAt`, `InvokeAt`, `CallsAt` — what a block may contain.
* `parseLeafParamJson_iff`, …, `blockLoop_iff` — **the parser** reads exactly that.
-/

variable {syn : DsmlSyntax} {p q rest out value tag name raw : Bytes} {a : JsonArg} {as : List JsonArg}

/-! ### Arguments -/

/-- The argument that a parameter with a value of its own is. -/
def leafArg (name type raw : Bytes) : JsonArg :=
  ⟨name, if type = lit "true" then dsmlUnescapeText raw else jsonOrNull raw, type = lit "true"⟩

/-- A member of the arguments. -/
def argText (a : JsonArg) : Bytes :=
  jsonEscape a.key ++ lit ": " ++ if a.isString then jsonEscape a.value else a.value

/-- The members of the arguments. -/
def argsText : List JsonArg → Bytes
  | []      => []
  | a :: as => argText a ++ as.flatMap fun b => lit ", " ++ argText b

/-- The arguments of a call. -/
def objectText (as : List JsonArg) : Bytes := lit "\x7b" ++ argsText as ++ lit "\x7d"

/-- The argument that a parameter with parameters of its own is. -/
def objectArg (name : Bytes) (as : List JsonArg) : JsonArg := ⟨name, jsonOrNull (objectText as), false⟩

theorem argText_ne_nil (a : JsonArg) : argText a ≠ [] := by
  unfold argText jsonEscape
  simp [lit]

theorem argsText_eq_nil : argsText as = [] ↔ as = [] := by
  cases as with
  | nil => simp [argsText]
  | cons a as => simp [argsText, argText_ne_nil]

/-- One member more. -/
theorem argsText_concat (as : List JsonArg) (a : JsonArg) :
    argsText (as ++ [a]) = argsText as ++ (if argsText as = [] then [] else lit ", ") ++ argText a := by
  cases as with
  | nil => simp [argsText]
  | cons b as =>
    have hne : argsText (b :: as) ≠ [] := fun h => absurd (argsText_eq_nil.mp h) (List.cons_ne_nil b as)
    rw [if_neg hne, List.cons_append, argsText, argsText, List.flatMap_append]
    simp

theorem toolCallJsonArgsAdd_leaf (as : List JsonArg) (name type raw : Bytes) :
    toolCallJsonArgsAdd (argsText as) name (paramValue type raw) type = argsText (as ++ [leafArg name type raw]) := by
  rw [argsText_concat]
  unfold toolCallJsonArgsAdd argText leafArg paramValue
  by_cases htype : type = lit "true"
  · simp only [htype, if_true, decide_true, List.append_assoc]
  · simp only [htype, decide_false, Bool.false_eq_true, if_false, List.append_assoc]

theorem toolCallJsonArgsAdd_object (as bs : List JsonArg) (name : Bytes) :
    toolCallJsonArgsAdd (argsText as) name (objectText bs) (lit "false") = argsText (as ++ [objectArg name bs]) := by
  have htype : lit "false" ≠ lit "true" := by decide
  rw [argsText_concat]
  unfold toolCallJsonArgsAdd argText objectArg
  simp only [if_neg htype, Bool.false_eq_true, if_false, List.append_assoc]

/-! ### What a block may contain -/

/-- A parameter with a value of its own. -/
structure LeafAt (syn : DsmlSyntax) (p : Bytes) (a : JsonArg) (rest : Bytes) : Prop where
  starts : syn.paramStart <+: p
  reads : ∃ tag value name raw, readTag p = some (tag, value) ∧ dsmlAttr tag (lit "name") = some name ∧
    readValue syn.paramEnd value = some (raw, rest) ∧
    a = leafArg name ((dsmlAttr tag (lit "string")).getD (lit "true")) raw

/-- Parameters up to something that is no parameter. -/
inductive LeavesAt (syn : DsmlSyntax) : Bytes → List JsonArg → Bytes → Prop
  | done {p : Bytes} (h : ¬ syn.paramStart <+: skipAsciiWs p) : LeavesAt syn p [] (skipAsciiWs p)
  | next {p q rest : Bytes} {a : JsonArg} {as : List JsonArg} (h : LeafAt syn (skipAsciiWs p) a q)
      (hrest : LeavesAt syn q as rest) : LeavesAt syn p (a :: as) rest

/-- Past the end of a parameter, if it is there. -/
def skipParamEnd (syn : DsmlSyntax) (p : Bytes) : Bytes :=
  if syn.paramEnd.isPrefixOf (skipAsciiWs p) then (skipAsciiWs p).drop syn.paramEnd.length else skipAsciiWs p

/-- A parameter of a call: one with a value of its own, or one without a type and with parameters. -/
inductive ParamAt (syn : DsmlSyntax) : Bytes → JsonArg → Bytes → Prop
  | leaf {p tag value name raw rest : Bytes} (htag : readTag p = some (tag, value))
      (hname : dsmlAttr tag (lit "name") = some name)
      (hflat : ¬ (dsmlAttr tag (lit "string") = none ∧ syn.paramStart <+: skipAsciiWs value))
      (hvalue : readValue syn.paramEnd value = some (raw, rest)) :
      ParamAt syn p (leafArg name ((dsmlAttr tag (lit "string")).getD (lit "true")) raw) rest
  | object {p tag value name rest : Bytes} {as : List JsonArg} (htag : readTag p = some (tag, value))
      (hname : dsmlAttr tag (lit "name") = some name) (htype : dsmlAttr tag (lit "string") = none)
      (hnested : syn.paramStart <+: skipAsciiWs value) (hleaves : LeavesAt syn value as rest) :
      ParamAt syn p (objectArg name as) (skipParamEnd syn rest)

/-- The parameters of a call up to its end. -/
inductive ParamsAt (syn : DsmlSyntax) : Bytes → List JsonArg → Bytes → Prop
  | done {p : Bytes} (h : syn.invokeEnd <+: skipAsciiWs p) :
      ParamsAt syn p [] ((skipAsciiWs p).drop syn.invokeEnd.length)
  | next {p q rest : Bytes} {a : JsonArg} {as : List JsonArg} (hend : ¬ syn.invokeEnd <+: skipAsciiWs p)
      (hstart : syn.paramStart <+: skipAsciiWs p) (h : ParamAt syn (skipAsciiWs p) a q)
      (hrest : ParamsAt syn q as rest) : ParamsAt syn p (a :: as) rest

/-- A call: its name and its arguments. -/
structure InvokeAt (syn : DsmlSyntax) (p : Bytes) (c : Bytes × List JsonArg) (rest : Bytes) : Prop where
  starts : syn.invokeStart <+: p
  reads : ∃ tag q, readTag p = some (tag, q) ∧ dsmlAttr tag (lit "name") = some c.1 ∧ ParamsAt syn q c.2 rest

/-- Calls up to the end of the block. -/
inductive CallsAt (syn : DsmlSyntax) : Bytes → List (Bytes × List JsonArg) → Bytes → Prop
  | done {p : Bytes} (h : syn.toolCallsEnd <+: skipAsciiWs p) :
      CallsAt syn p [] ((skipAsciiWs p).drop syn.toolCallsEnd.length)
  | next {p q rest : Bytes} {c : Bytes × List JsonArg} {cs : List (Bytes × List JsonArg)}
      (hend : ¬ syn.toolCallsEnd <+: skipAsciiWs p) (h : InvokeAt syn (skipAsciiWs p) c q)
      (hrest : CallsAt syn q cs rest) : CallsAt syn p (c :: cs) rest

/-- The call as the parser gives it. -/
def callOf (c : Bytes × List JsonArg) : ToolCall := ⟨c.1, objectText c.2⟩

/-! ### What is left -/

theorem skipAsciiWs_suffix (p : Bytes) : skipAsciiWs p <:+ p := List.dropWhile_suffix _

theorem skipAsciiWs_length_le (p : Bytes) : (skipAsciiWs p).length ≤ p.length := (skipAsciiWs_suffix p).length_le

theorem readTag_suffix (h : readTag p = some (tag, value)) : value <:+ p := by
  obtain ⟨i, -, heq⟩ := Option.map_eq_some_iff.mp h
  obtain ⟨-, rfl⟩ := Prod.mk.inj heq
  exact List.drop_suffix _ _

theorem readTag_length_lt (h : readTag p = some (tag, value)) : value.length < p.length := by
  obtain ⟨i, hi, heq⟩ := Option.map_eq_some_iff.mp h
  obtain ⟨-, rfl⟩ := Prod.mk.inj heq
  have hle := Lib.findSub_length_le hi
  rw [show (lit ">").length = 1 by decide] at hle
  rw [List.length_drop]
  omega

theorem readValue_parts {close : Bytes} (h : readValue close value = some (raw, rest)) :
    raw <+: value ∧ rest <:+ value := by
  obtain ⟨i, -, heq⟩ := Option.map_eq_some_iff.mp h
  obtain ⟨rfl, rfl⟩ := Prod.mk.inj heq
  exact ⟨List.take_prefix _ _, List.drop_suffix _ _⟩

theorem LeafAt.suffix (h : LeafAt syn p a rest) : rest <:+ p ∧ rest.length < p.length := by
  obtain ⟨tag, value, name, raw, htag, -, hvalue, -⟩ := h.reads
  have hsuffix := readTag_suffix htag
  have hrest := (readValue_parts hvalue).2
  have hlt := readTag_length_lt htag
  exact ⟨hrest.trans hsuffix, Nat.lt_of_le_of_lt hrest.length_le hlt⟩

theorem LeafAt.length_lt (h : LeafAt syn p a rest) : rest.length < p.length := (LeafAt.suffix h).2

theorem LeavesAt.suffix (h : LeavesAt syn p as rest) : rest <:+ p := by
  induction h with
  | done h => exact skipAsciiWs_suffix _
  | @next p q rest a as h hrest ih => exact ih.trans (h.suffix.1.trans (skipAsciiWs_suffix p))

theorem skipParamEnd_suffix (syn : DsmlSyntax) (p : Bytes) : skipParamEnd syn p <:+ p := by
  unfold skipParamEnd
  split
  next => exact (List.drop_suffix _ _).trans (skipAsciiWs_suffix p)
  next => exact skipAsciiWs_suffix p

theorem ParamAt.suffix (h : ParamAt syn p a rest) : rest <:+ p ∧ rest.length < p.length := by
  cases h with
  | leaf htag hname hflat hvalue =>
    have hsuffix := readTag_suffix htag
    have hrest := (readValue_parts hvalue).2
    exact ⟨hrest.trans hsuffix, Nat.lt_of_le_of_lt hrest.length_le (readTag_length_lt htag)⟩
  | @object _ value _ q as htag hname htype hnested hleaves =>
    have hsuffix := readTag_suffix htag
    have hrest := (skipParamEnd_suffix syn q).trans hleaves.suffix
    exact ⟨hrest.trans hsuffix, Nat.lt_of_le_of_lt hrest.length_le (readTag_length_lt htag)⟩

theorem ParamAt.length_lt (h : ParamAt syn p a rest) : rest.length < p.length := (ParamAt.suffix h).2

theorem ParamsAt.suffix (h : ParamsAt syn p as rest) : rest <:+ p := by
  induction h with
  | @done p h => exact (List.drop_suffix _ _).trans (skipAsciiWs_suffix p)
  | @next p q rest a as hend hstart h hrest ih => exact ih.trans (h.suffix.1.trans (skipAsciiWs_suffix p))

theorem InvokeAt.suffix {c : Bytes × List JsonArg} (h : InvokeAt syn p c rest) : rest <:+ p ∧ rest.length < p.length := by
  obtain ⟨tag, q, htag, -, hparams⟩ := h.reads
  have hrest := hparams.suffix
  exact ⟨hrest.trans (readTag_suffix htag), Nat.lt_of_le_of_lt hrest.length_le (readTag_length_lt htag)⟩

theorem InvokeAt.length_lt {c : Bytes × List JsonArg} (h : InvokeAt syn p c rest) : rest.length < p.length :=
  (InvokeAt.suffix h).2

theorem CallsAt.suffix {cs : List (Bytes × List JsonArg)} (h : CallsAt syn p cs rest) : rest <:+ p := by
  induction h with
  | @done p h => exact (List.drop_suffix _ _).trans (skipAsciiWs_suffix p)
  | @next p q rest c cs hend h hrest ih => exact ih.trans (h.suffix.1.trans (skipAsciiWs_suffix p))

/-! ### The parser -/

theorem parseLeafParamJson_iff {out' : Bytes} :
    parseLeafParamJson syn p (argsText as) = some (rest, out') ↔
      ∃ a, LeafAt syn p a rest ∧ out' = argsText (as ++ [a]) := by
  unfold parseLeafParamJson
  simp only [List.isPrefixOf_iff_prefix]
  constructor
  · intro h
    by_cases hstart : syn.paramStart <+: p
    · rw [if_pos hstart] at h
      cases htag : readTag p with
      | none => exact absurd h (by simp [htag])
      | some r =>
        obtain ⟨tag, value⟩ := r
        cases hname : dsmlAttr tag (lit "name") with
        | none => exact absurd h (by simp [htag, hname])
        | some name =>
          simp only [htag, hname] at h
          obtain ⟨⟨raw, rest'⟩, hvalue, heq⟩ := Option.map_eq_some_iff.mp h
          obtain ⟨rfl, rfl⟩ := Prod.mk.inj heq
          refine ⟨_, ⟨hstart, tag, value, name, raw, htag, hname, hvalue, rfl⟩, ?_⟩
          exact toolCallJsonArgsAdd_leaf as name _ raw
    · rw [if_neg hstart] at h
      exact absurd h nofun
  · rintro ⟨a, ⟨hstart, tag, value, name, raw, htag, hname, hvalue, rfl⟩, rfl⟩
    rw [if_pos hstart]
    simp only [htag, hname, hvalue, Option.map_some, toolCallJsonArgsAdd_leaf]

theorem nestedLoop_iff {fuel : Nat} (hfuel : p.length < fuel) {out' : Bytes} :
    nestedLoop syn fuel p (argsText as) = some (rest, out') ↔
      ∃ bs, LeavesAt syn p bs rest ∧ out' = argsText (as ++ bs) := by
  induction fuel generalizing p as with
  | zero => exact absurd hfuel (Nat.not_lt_zero _)
  | succ fuel ih =>
    have hle := skipAsciiWs_length_le p
    rw [nestedLoop]
    simp only [List.isPrefixOf_iff_prefix]
    by_cases hstart : syn.paramStart <+: skipAsciiWs p
    · rw [if_pos hstart]
      constructor
      · intro h
        cases hleaf : parseLeafParamJson syn (skipAsciiWs p) (argsText as) with
        | none => exact absurd h (by simp [hleaf])
        | some r =>
          obtain ⟨q, out⟩ := r
          obtain ⟨a, ha, rfl⟩ := parseLeafParamJson_iff.mp hleaf
          have hlt := ha.length_lt
          simp only [hleaf] at h
          obtain ⟨bs, hbs, rfl⟩ := (ih (by omega)).mp h
          exact ⟨a :: bs, .next ha hbs, by rw [List.append_assoc]; rfl⟩
      · rintro ⟨bs, hbs, rfl⟩
        cases hbs with
        | done h => exact absurd hstart h
        | @next _ q _ a bs ha hbs =>
          have hlt := ha.length_lt
          have hleaf : parseLeafParamJson syn (skipAsciiWs p) (argsText as) = some (q, argsText (as ++ [a])) :=
            parseLeafParamJson_iff.mpr ⟨a, ha, rfl⟩
          simp only [hleaf]
          exact (ih (by omega)).mpr ⟨bs, hbs, by rw [List.append_assoc]; rfl⟩
    · rw [if_neg hstart]
      constructor
      · intro h
        obtain ⟨rfl, rfl⟩ := Prod.mk.inj (Option.some.inj h)
        exact ⟨[], .done hstart, by rw [List.append_nil]⟩
      · rintro ⟨bs, hbs, rfl⟩
        cases hbs with
        | done h => rw [List.append_nil]
        | next ha hbs => exact absurd ha.starts hstart

theorem parseNestedParamsObject_iff (hstart : syn.paramStart <+: skipAsciiWs p) {out' : Bytes} :
    parseNestedParamsObject syn p = some (rest, out') ↔ ∃ bs, LeavesAt syn p bs rest ∧ out' = objectText bs := by
  unfold parseNestedParamsObject
  have hloop : ∀ rest out', nestedLoop syn (p.length + 1) p [] = some (rest, out') ↔
      ∃ bs, LeavesAt syn p bs rest ∧ out' = argsText bs :=
    fun rest out' => @nestedLoop_iff syn p rest [] _ (Nat.lt_succ_self _) out'
  constructor
  · intro h
    cases hrun : nestedLoop syn (p.length + 1) p [] with
    | none => exact absurd h (by simp [hrun])
    | some r =>
      obtain ⟨q, members⟩ := r
      obtain ⟨bs, hbs, rfl⟩ := (hloop q members).mp hrun
      simp only [hrun] at h
      by_cases hnil : argsText bs = []
      · rw [if_pos hnil] at h
        exact absurd h nofun
      · rw [if_neg hnil] at h
        obtain ⟨rfl, rfl⟩ := Prod.mk.inj (Option.some.inj h)
        exact ⟨bs, hbs, rfl⟩
  · rintro ⟨bs, hbs, rfl⟩
    have hne : argsText bs ≠ [] := by
      rw [Ne, argsText_eq_nil]
      rintro rfl
      cases hbs with
      | done h => exact h hstart
    simp only [(hloop rest _).mpr ⟨bs, hbs, rfl⟩, if_neg hne]
    rfl

theorem parseParam_iff {out' : Bytes} :
    parseParam syn p (argsText as) = some (rest, out') ↔ ∃ a, ParamAt syn p a rest ∧ out' = argsText (as ++ [a]) := by
  unfold parseParam
  simp only [List.isPrefixOf_iff_prefix]
  constructor
  · intro h
    cases htag : readTag p with
    | none => exact absurd h (by simp [htag])
    | some r =>
      obtain ⟨tag, value⟩ := r
      cases hname : dsmlAttr tag (lit "name") with
      | none => exact absurd h (by simp [htag, hname])
      | some name =>
        simp only [htag, hname] at h
        by_cases hnested : dsmlAttr tag (lit "string") = none ∧ syn.paramStart <+: skipAsciiWs value
        · rw [if_pos hnested] at h
          obtain ⟨⟨q, object⟩, hobject, heq⟩ := Option.map_eq_some_iff.mp h
          obtain ⟨bs, hbs, rfl⟩ := (parseNestedParamsObject_iff hnested.2).mp hobject
          obtain ⟨rfl, rfl⟩ := Prod.mk.inj heq
          refine ⟨objectArg name bs, ?_, toolCallJsonArgsAdd_object as bs name⟩
          have hparam := ParamAt.object htag hname hnested.1 hnested.2 hbs
          unfold skipParamEnd at hparam
          simp only [List.isPrefixOf_iff_prefix] at hparam
          exact hparam
        · rw [if_neg hnested] at h
          obtain ⟨⟨raw, q⟩, hvalue, heq⟩ := Option.map_eq_some_iff.mp h
          obtain ⟨rfl, rfl⟩ := Prod.mk.inj heq
          exact ⟨_, .leaf htag hname hnested hvalue, toolCallJsonArgsAdd_leaf as name _ raw⟩
  · rintro ⟨a, ha, rfl⟩
    cases ha with
    | leaf htag hname hflat hvalue =>
      simp only [htag, hname, if_neg hflat, hvalue, Option.map_some, toolCallJsonArgsAdd_leaf]
    | object htag hname htype hnested hleaves =>
      have hobject := (parseNestedParamsObject_iff hnested).mpr ⟨_, hleaves, rfl⟩
      simp only [htag, hname, if_pos (And.intro htype hnested), hobject, Option.map_some,
        toolCallJsonArgsAdd_object]
      unfold skipParamEnd
      simp only [List.isPrefixOf_iff_prefix]

theorem paramsLoop_iff {fuel : Nat} (hfuel : p.length < fuel) {out' : Bytes} :
    paramsLoop syn fuel p (argsText as) = some (rest, out') ↔
      ∃ bs, ParamsAt syn p bs rest ∧ out' = argsText (as ++ bs) := by
  induction fuel generalizing p as with
  | zero => exact absurd hfuel (Nat.not_lt_zero _)
  | succ fuel ih =>
    have hle := skipAsciiWs_length_le p
    rw [paramsLoop]
    simp only [List.isPrefixOf_iff_prefix]
    by_cases hend : syn.invokeEnd <+: skipAsciiWs p
    · rw [if_pos hend]
      constructor
      · intro h
        obtain ⟨rfl, rfl⟩ := Prod.mk.inj (Option.some.inj h)
        exact ⟨[], .done hend, by rw [List.append_nil]⟩
      · rintro ⟨bs, hbs, rfl⟩
        cases hbs with
        | done h => rw [List.append_nil]
        | next hnot => exact absurd hend hnot
    · rw [if_neg hend]
      by_cases hstart : syn.paramStart <+: skipAsciiWs p
      · rw [if_pos hstart]
        constructor
        · intro h
          cases hparam : parseParam syn (skipAsciiWs p) (argsText as) with
          | none => exact absurd h (by simp [hparam])
          | some r =>
            obtain ⟨q, out⟩ := r
            obtain ⟨a, ha, rfl⟩ := parseParam_iff.mp hparam
            have hlt := ha.length_lt
            simp only [hparam] at h
            obtain ⟨bs, hbs, rfl⟩ := (ih (by omega)).mp h
            exact ⟨a :: bs, .next hend hstart ha hbs, by rw [List.append_assoc]; rfl⟩
        · rintro ⟨bs, hbs, rfl⟩
          cases hbs with
          | done h => exact absurd h hend
          | @next _ q _ a bs _ _ ha hbs =>
            have hlt := ha.length_lt
            have hparam : parseParam syn (skipAsciiWs p) (argsText as) = some (q, argsText (as ++ [a])) :=
              parseParam_iff.mpr ⟨a, ha, rfl⟩
            simp only [hparam]
            exact (ih (by omega)).mpr ⟨bs, hbs, by rw [List.append_assoc]; rfl⟩
      · rw [if_neg hstart]
        constructor
        · exact fun h => absurd h nofun
        · rintro ⟨bs, hbs, rfl⟩
          cases hbs with
          | done h => exact absurd h hend
          | next _ h => exact absurd h hstart

theorem parseInvoke_iff {tc : ToolCall} :
    parseInvoke syn p = some (rest, tc) ↔ ∃ c, InvokeAt syn p c rest ∧ tc = callOf c := by
  unfold parseInvoke
  simp only [List.isPrefixOf_iff_prefix]
  constructor
  · intro h
    by_cases hstart : syn.invokeStart <+: p
    · rw [if_pos hstart] at h
      cases htag : readTag p with
      | none => exact absurd h (by simp [htag])
      | some r =>
        obtain ⟨tag, q⟩ := r
        cases hname : dsmlAttr tag (lit "name") with
        | none => exact absurd h (by simp [htag, hname])
        | some name =>
          simp only [htag, hname] at h
          obtain ⟨⟨rest', out⟩, hparams, heq⟩ := Option.map_eq_some_iff.mp h
          obtain ⟨bs, hbs, rfl⟩ := (@paramsLoop_iff syn q rest' [] _ (Nat.lt_succ_self _) out).mp hparams
          obtain ⟨rfl, rfl⟩ := Prod.mk.inj heq
          exact ⟨(name, bs), ⟨hstart, tag, q, htag, hname, hbs⟩, rfl⟩
    · rw [if_neg hstart] at h
      exact absurd h nofun
  · rintro ⟨c, ⟨hstart, tag, q, htag, hname, hparams⟩, rfl⟩
    have hloop : paramsLoop syn (q.length + 1) q [] = some (rest, argsText c.2) :=
      (@paramsLoop_iff syn q rest [] _ (Nat.lt_succ_self _) _).mpr ⟨c.2, hparams, rfl⟩
    rw [if_pos hstart]
    simp only [htag, hname, hloop, Option.map_some]
    rfl

theorem blockLoop_iff {fuel : Nat} (hfuel : p.length < fuel) {calls out' : List ToolCall} :
    blockLoop syn fuel p calls = some (rest, out') ↔ ∃ cs, CallsAt syn p cs rest ∧ out' = calls ++ cs.map callOf := by
  induction fuel generalizing p calls with
  | zero => exact absurd hfuel (Nat.not_lt_zero _)
  | succ fuel ih =>
    have hle := skipAsciiWs_length_le p
    rw [blockLoop]
    simp only [List.isPrefixOf_iff_prefix]
    by_cases hend : syn.toolCallsEnd <+: skipAsciiWs p
    · rw [if_pos hend]
      constructor
      · intro h
        obtain ⟨rfl, rfl⟩ := Prod.mk.inj (Option.some.inj h)
        exact ⟨[], .done hend, by rw [List.map_nil, List.append_nil]⟩
      · rintro ⟨cs, hcs, rfl⟩
        cases hcs with
        | done h => rw [List.map_nil, List.append_nil]
        | next hnot => exact absurd hend hnot
    · rw [if_neg hend]
      constructor
      · intro h
        cases hinvoke : parseInvoke syn (skipAsciiWs p) with
        | none => exact absurd h (by simp [hinvoke])
        | some r =>
          obtain ⟨q, tc⟩ := r
          obtain ⟨c, hc, rfl⟩ := parseInvoke_iff.mp hinvoke
          have hlt := hc.length_lt
          simp only [hinvoke] at h
          obtain ⟨cs, hcs, rfl⟩ := (ih (by omega)).mp h
          exact ⟨c :: cs, .next hend hc hcs, by rw [List.append_assoc]; rfl⟩
      · rintro ⟨cs, hcs, rfl⟩
        cases hcs with
        | done h => exact absurd h hend
        | @next _ q _ c cs _ hc hcs =>
          have hlt := hc.length_lt
          have hinvoke : parseInvoke syn (skipAsciiWs p) = some (q, callOf c) := parseInvoke_iff.mpr ⟨c, hc, rfl⟩
          simp only [hinvoke]
          exact (ih (by omega)).mpr ⟨cs, hcs, by rw [List.append_assoc]; rfl⟩

end DS4.Server
