import DS4.Lib.Utf8Parts
import DS4.Server.StreamSafe

namespace DS4.Server

/-!
# Server — the live streams of the three APIs

OpenAI chat, Anthropic and Responses requests are streamed by three copies of one state machine.
They differ in what a fragment goes through on its way into a chunk, in whether reasoning is
shown, and in whether a tool block is followed live.

* `StreamApi` — these differences; `openaiApi`, `anthropicApi`, `responsesApi`.
* `StreamApi.toolStep`, `StreamApi.sseStreamUpdate` — the machine.
* `openaiSseStreamUpdate_eq` — for `openaiApi` it is the OpenAI stream.
* `StreamApi.held` — what an update holds back because a character is not complete.
-/

/-! ### The APIs -/

/-- What the live streams do differently. -/
structure StreamApi where
  /-- what a fragment goes through on its way into a chunk -/
  out : Bytes → Bytes
  /-- is reasoning sent? -/
  showsReasoning : Bool
  /-- given `final`: is a tool block that has just been found followed? -/
  followsTool : Bool → Bool
  out_valid : ∀ s, Lib.Valid s → Lib.Valid (out s)
  /-- what stands before the first NUL arrives -/
  out_prefix : ∀ h s, NulFree h → h <+: s → h <+: out s

theorem valid_cstr {s : Bytes} (h : Lib.Valid s) : Lib.Valid (cstr s) := by
  apply h.takeWhile
  intro b hb
  apply decide_eq_true
  rintro rfl
  exact absurd hb (by decide)

theorem prefix_cstr {h s : Bytes} (hnul : NulFree h) (hp : h <+: s) : h <+: cstr s := by
  obtain ⟨t, rfl⟩ := hp
  have hall : ∀ c ∈ h, (fun c : UInt8 => decide (c ≠ 0)) c = true := fun c hc => decide_eq_true (hnul c hc)
  unfold cstr
  rw [List.takeWhile_append_of_pos hall]
  exact List.prefix_append _ _

/-- The OpenAI stream copies a fragment with `xstrndup` and sends it as a C string. -/
def openaiApi : StreamApi where
  out := cstr
  showsReasoning := true
  followsTool := fun _ => true
  out_valid := fun _ => valid_cstr
  out_prefix := fun _ _ => prefix_cstr

/-- The Anthropic stream sends a fragment by its length; a tool block that the final update finds
    is left to the final emitter. -/
def anthropicApi : StreamApi where
  out := id
  showsReasoning := true
  followsTool := fun final => !final
  out_valid := fun _ => id
  out_prefix := fun _ _ _ => id

/-- The Responses stream sends no tool call live, and reasoning only for
    `reasoning_summary_emit`. -/
def responsesApi (reasoningSummaryEmit : Bool) : StreamApi where
  out := id
  showsReasoning := reasoningSummaryEmit
  followsTool := fun _ => false
  out_valid := fun _ => id
  out_prefix := fun _ _ _ => id

namespace StreamApi

variable (api : StreamApi)

/-! ### Tool calls -/

/-- `openai_tool_emit_args_fragment`, `anthropic_tool_emit_args_fragment` -/
def argsDelta (index : Nat) (text : Bytes) : List Delta :=
  if text = [] then [] else [.toolCallArgs index (api.out text)]

/-- `*_tool_emit_string_value` for a string, else `*_tool_emit_args_fragment`. -/
def emitValue (ts : OpenaiToolStream) (text : Bytes) : List Delta :=
  if ts.paramIsString then
    if text = [] then []
    else api.argsDelta ts.index (jsonEscapeFragment (cstr (dsmlUnescapeText text)))
  else api.argsDelta ts.index text

/-- `*_tool_emit_param_prefix` -/
def emitParamPrefix (ts : OpenaiToolStream) (name : Bytes) (isString : Bool) : List Delta :=
  api.argsDelta ts.index
    ((if ts.firstParam then [] else lit ",") ++ jsonEscape name ++ lit ":" ++
      (if isString then lit "\"" else []))

variable (raw : Bytes) (rawLen : Nat)

/-- `*_tool_start_invoke` -/
def toolStartInvoke (ts : OpenaiToolStream) : ToolStep :=
  match findLitBounded raw rawLen ts.parsePos (lit ">") with
  | none        => .stop ts []
  | some tagEnd =>
    match dsmlAttr (slice raw ts.parsePos (tagEnd + 1)) (lit "name") with
    | none      => .next ts.fail []
    | some name =>
      .next
        { ts with
          emittedAny := true, argsOpen := true, firstParam := true, parsePos := tagEnd + 1,
          state := .betweenParams }
        (.toolCallStart ts.index name :: api.argsDelta ts.index (lit "\x7b"))

/-- `*_tool_start_param` -/
def toolStartParam (ts : OpenaiToolStream) : ToolStep :=
  match findLitBounded raw rawLen ts.parsePos (lit ">") with
  | none        => .stop ts []
  | some tagEnd =>
    let tag := slice raw ts.parsePos (tagEnd + 1)
    match dsmlAttr tag (lit "name"), dsmlAttr tag (lit "string") with
    | some name, some isString =>
      .next
        { ts with
          firstParam := false, paramIsString := isString == lit "true", parsePos := tagEnd + 1,
          state := .paramValue }
        (api.emitParamPrefix ts name (isString == lit "true"))
    | _, _ => .next ts.fail []

/-- `*_tool_finish_param` -/
def toolFinishParam (ts : OpenaiToolStream) (valueEnd : Nat) : ToolStep :=
  .next
    { ts with parsePos := valueEnd + ts.syn.paramEnd.length, state := .betweenParams }
    ((if ts.parsePos < valueEnd then api.emitValue ts (slice raw ts.parsePos valueEnd) else []) ++
      (if ts.paramIsString then api.argsDelta ts.index (lit "\"") else []))

/-- A turn in `DSML_TOOL_BETWEEN_INVOKES`, behind the white space. -/
def toolBetweenInvokes (ts : OpenaiToolStream) : ToolStep :=
  if rawLen ≤ ts.parsePos then .stop ts []
  else if rawFullLit raw rawLen ts.parsePos ts.syn.toolCallsEnd then
    .stop
      { ts with
        parsePos := ts.parsePos + ts.syn.toolCallsEnd.length, active := false, state := .done } []
  else if rawPartialAny raw rawLen ts.parsePos ts.syn.toolCallsEnd ts.syn.invokeStart then
    .stop ts []
  else if rawFullLit raw rawLen ts.parsePos ts.syn.invokeStart then
    api.toolStartInvoke raw rawLen ts
  else .stop ts.fail []

/-- A turn in `DSML_TOOL_BETWEEN_PARAMS`, behind the white space. -/
def toolBetweenParams (ts : OpenaiToolStream) : ToolStep :=
  if rawLen ≤ ts.parsePos then .stop ts []
  else if rawFullLit raw rawLen ts.parsePos ts.syn.invokeEnd then
    .next
      { ts with
        argsOpen := false, parsePos := ts.parsePos + ts.syn.invokeEnd.length,
        index := ts.index + 1, state := .betweenInvokes }
      (if ts.argsOpen then api.argsDelta ts.index (lit "\x7d") else [])
  else if rawPartialAny raw rawLen ts.parsePos ts.syn.invokeEnd ts.syn.paramStart then .stop ts []
  else if rawFullLit raw rawLen ts.parsePos ts.syn.paramStart then
    api.toolStartParam raw rawLen ts
  else .stop ts.fail []

/-- A turn in `DSML_TOOL_PARAM_VALUE`. -/
def toolParamValue (ts : OpenaiToolStream) : ToolStep :=
  match findLitBounded raw rawLen ts.parsePos ts.syn.paramEnd with
  | some valueEnd => api.toolFinishParam raw ts valueEnd
  | none =>
    let limit :=
      toolParamValueStreamSafeLen raw ts.parsePos rawLen ts.syn.paramEnd ts.paramIsString
    if ts.parsePos < limit then
      .stop { ts with parsePos := limit } (api.emitValue ts (slice raw ts.parsePos limit))
    else .stop ts []

/-- A turn of the loop of `*_tool_stream_update`. -/
def toolStep (ts : OpenaiToolStream) : ToolStep :=
  match ts.state with
  | .betweenInvokes => api.toolBetweenInvokes raw rawLen (ts.skipSpace raw rawLen)
  | .betweenParams  => api.toolBetweenParams raw rawLen (ts.skipSpace raw rawLen)
  | .paramValue     => api.toolParamValue raw rawLen ts
  | .done           => .stop ts []
  | .error          => .stop ts []

/-- The loop of `*_tool_stream_update`, with fuel as in `openaiToolLoop`. -/
def toolLoop : Nat → OpenaiToolStream → OpenaiToolStream × List Delta
  | 0, ts        => (ts, [])
  | fuel + 1, ts =>
    if ts.active && decide (ts.parsePos < rawLen) then
      match api.toolStep raw rawLen ts with
      | .stop ts' ds => (ts', ds)
      | .next ts' ds =>
        let rest := toolLoop fuel ts'
        (rest.1, ds ++ rest.2)
    else (ts, [])

/-- `*_tool_stream_update` -/
def toolStreamUpdate (ts : OpenaiToolStream) : OpenaiToolStream × List Delta :=
  api.toolLoop raw rawLen (rawLen + 1) ts

/-! ### The stream -/

/-- The fragment from `emitPos` up to `limit`, if there is one. -/
def fragment (delta : Bytes → Delta) (st : OpenaiStream) (limit : Nat) : List Delta :=
  if st.emitPos < limit then [delta (api.out (slice raw st.emitPos limit))] else []

/-- A fragment of reasoning, if reasoning is shown. -/
def reasoningFragment (st : OpenaiStream) (limit : Nat) : List Delta :=
  if api.showsReasoning then api.fragment raw .reasoningContent st limit else []

/-- How far reasoning may be sent before `</think>` has arrived, up to an incomplete character. -/
def reasoningLimit (start rawLen : Nat) : Nat :=
  if THINK_END.length - 1 < rawLen then rawLen - (THINK_END.length - 1) else start

/-- The reasoning block of `*_sse_stream_update`. -/
def reasoningUpdate (st : OpenaiStream) (final : Bool) : OpenaiStream × List Delta :=
  match checkThinkPrefix raw rawLen st final with
  | none    => (st, [])
  | some st =>
    match strstr (raw.drop st.emitPos) THINK_END with
    | some i =>
      let close := st.emitPos + i
      ({ st with emitPos := close + THINK_END.length, mode := .text },
        api.reasoningFragment raw st close)
    | none =>
      if final then
        ({ st with emitPos := max st.emitPos rawLen, mode := .suppress },
          api.reasoningFragment raw st rawLen)
      else
        let limit := utf8StreamSafeLen raw st.emitPos (reasoningLimit st.emitPos rawLen) false
        ({ st with emitPos := max st.emitPos limit }, api.reasoningFragment raw st limit)

/-- The text block of `*_sse_stream_update`. -/
def textUpdate (hasTools : Bool) (st : OpenaiStream) (final : Bool) : OpenaiStream × List Delta :=
  let limit := textStreamSafeLimit raw st.emitPos rawLen hasTools final
  let ds := api.fragment raw .content st limit
  match if hasTools then findAnyToolStart (raw.drop st.emitPos) else none with
  | some i =>
    let tool := st.emitPos + i
    if api.followsTool final then
      let ts := openaiToolStreamInit raw rawLen tool
      ({ st with emitPos := tool, tool := ts, mode := if ts.active then .tool else .suppress }, ds)
    else ({ st with emitPos := tool, mode := .suppress }, ds)
  | none =>
    ({ st with
      emitPos := max st.emitPos limit, mode := if final then .suppress else st.mode }, ds)

/-- The tool block of `*_sse_stream_update`. -/
def toolUpdate (st : OpenaiStream) : OpenaiStream × List Delta :=
  let r := api.toolStreamUpdate raw rawLen st.tool
  ({ st with tool := r.1, mode := if r.1.active then .tool else .suppress }, r.2)

/-- `openai_sse_stream_update`, `anthropic_sse_stream_update`, `responses_sse_stream_update` -/
def sseStreamUpdate (hasTools : Bool) (st : OpenaiStream) (final : Bool) :
    OpenaiStream × List Delta :=
  if st.active = false then (st, [])
  else
    let r1 := if st.mode = .thinking then api.reasoningUpdate raw rawLen st final else (st, [])
    let r2 :=
      if r1.1.mode = .text then api.textUpdate raw rawLen hasTools r1.1 final else (r1.1, [])
    let r3 := if r2.1.mode = .tool then api.toolUpdate raw rawLen r2.1 else (r2.1, [])
    (r3.1, r1.2 ++ r2.2 ++ r3.2)

end StreamApi

/-! ### The OpenAI stream -/

theorem openaiToolLoop_eq (raw : Bytes) (rawLen fuel : Nat) (ts : OpenaiToolStream) :
    openaiToolLoop raw rawLen fuel ts = openaiApi.toolLoop raw rawLen fuel ts := by
  induction fuel generalizing ts with
  | zero => rfl
  | succ fuel ih =>
    have hstep : openaiToolStep raw rawLen ts = openaiApi.toolStep raw rawLen ts := rfl
    rw [openaiToolLoop, StreamApi.toolLoop, hstep]
    cases openaiApi.toolStep raw rawLen ts with
    | stop ts' ds => rfl
    | next ts' ds => simp only [ih]

/-- **The OpenAI stream** is the machine of its API. -/
theorem openaiSseStreamUpdate_eq (raw : Bytes) (rawLen : Nat) (hasTools : Bool) (st : OpenaiStream)
    (final : Bool) :
    openaiSseStreamUpdate raw rawLen hasTools st final =
      openaiApi.sseStreamUpdate raw rawLen hasTools st final := by
  have htool : ∀ st, openaiToolUpdate raw rawLen st = openaiApi.toolUpdate raw rawLen st := by
    intro st
    unfold openaiToolUpdate StreamApi.toolUpdate openaiToolStreamUpdate StreamApi.toolStreamUpdate
    rw [openaiToolLoop_eq]
  unfold openaiSseStreamUpdate StreamApi.sseStreamUpdate
  simp only [htool]
  rfl

/-! ### What an update holds back -/

/-- The limit that `text_stream_safe_limit` gives to `utf8_stream_safe_len`, where a tool marker
    may still arrive: without trailing white space and without a marker that has begun. -/
def textHoldLimit (raw : Bytes) (start rawLen : Nat) : Nat :=
  let limit := trimToolSeparatorWs raw start rawLen
  let scan := if 80 < rawLen - start then rawLen - 80 else start
  let limit :=
    match Lib.lastIdx '<'.toUInt8 raw scan rawLen with
    | some marker => min marker limit
    | none        => limit
  trimToolSeparatorWs raw start limit

namespace StreamApi

variable (api : StreamApi) (raw : Bytes) (rawLen : Nat)

/-- What the reasoning block holds back at `utf8_stream_safe_len`, of what is shown. -/
def reasoningHeld (st : OpenaiStream) (final : Bool) : Bytes :=
  match checkThinkPrefix raw rawLen st final with
  | none    => []
  | some st =>
    match strstr (raw.drop st.emitPos) THINK_END with
    | some _ => []
    | none   =>
      if final || !api.showsReasoning then []
      else
        let limit := reasoningLimit st.emitPos rawLen
        slice raw (utf8StreamSafeLen raw st.emitPos limit false) limit

/-- What the text block holds back at `utf8_stream_safe_len`. -/
def textHeld (hasTools : Bool) (st : OpenaiStream) (final : Bool) : Bytes :=
  if rawLen ≤ st.emitPos then []
  else
    match if hasTools then findAnyToolStart (raw.drop st.emitPos) else none with
    | some _ => []
    | none   =>
      let limit := if hasTools && !final then textHoldLimit raw st.emitPos rawLen else rawLen
      slice raw (textStreamSafeLimit raw st.emitPos rawLen hasTools final) limit

/-- What a turn of the tool stream holds back at `utf8_stream_safe_len`: in a parameter value
    whose end has not arrived, up to an end tag or entity that has begun. -/
def toolStepHeld (ts : OpenaiToolStream) : Bytes :=
  if ts.state = .paramValue ∧ findLitBounded raw rawLen ts.parsePos ts.syn.paramEnd = none then
    slice raw
      (toolParamValueStreamSafeLen raw ts.parsePos rawLen ts.syn.paramEnd ts.paramIsString)
      (valueHold ts.syn.paramEnd raw ts.paramIsString ts.parsePos rawLen)
  else []

/-- What the loop of the tool stream holds back, in its last turn. -/
def toolHeld : Nat → OpenaiToolStream → Bytes
  | 0, _         => []
  | fuel + 1, ts =>
    if ts.active && decide (ts.parsePos < rawLen) then
      match api.toolStep raw rawLen ts with
      | .stop _ _   => toolStepHeld raw rawLen ts
      | .next ts' _ => toolHeld fuel ts'
    else []

/-- What an update of the stream holds back because a character is not complete.  At most one
    block holds anything, the last one that runs. -/
def held (hasTools : Bool) (st : OpenaiStream) (final : Bool) : Bytes :=
  if st.active = false then []
  else
    let r1 := if st.mode = .thinking then api.reasoningUpdate raw rawLen st final else (st, [])
    let r2 :=
      if r1.1.mode = .text then api.textUpdate raw rawLen hasTools r1.1 final else (r1.1, [])
    (if st.mode = .thinking then api.reasoningHeld raw rawLen st final else []) ++
      (if r1.1.mode = .text then textHeld raw rawLen hasTools r1.1 final else []) ++
      (if r2.1.mode = .tool then api.toolHeld raw rawLen (rawLen + 1) r2.1.tool else [])

end StreamApi

end DS4.Server
