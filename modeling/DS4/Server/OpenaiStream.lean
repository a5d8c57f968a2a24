import DS4.Server.Dsml

namespace DS4.Server

/-!
# Server — the OpenAI live stream

A translation state machine over the generated text.  Each update is given the text so far and
sends what it can already classify: reasoning, content, and the arguments of tool calls as JSON
fragments.  Writes succeed; a failed one ends the response.

* `textStreamSafeLimit`, `toolParamValueStreamSafeLen` — how much may be sent.
* `OpenaiToolStream`, `openaiToolStep`, `openaiToolStreamUpdate` — a tool-call block.
* `OpenaiStream`, `openaiSseStreamUpdate` — the stream.
* `Delta` — what is sent; `reasoningOf`, `contentOf`, `startsOf`, `argsOf` — what a client puts
  together from it.
-/

/-! ### What may be sent -/

/-- The entity tail that `dsml_entity_stream_safe_len` holds back: its `max_ent` is 6. -/
def dsmlEntityStreamSafeLen (raw : Bytes) (start limit : Nat) : Nat :=
  Lib.holdBack '&'.toUInt8 (dsmlEntities.map Prod.fst) 6 raw start limit

/-- `tool_param_value_stream_safe_len` -/
def toolParamValueStreamSafeLen (raw : Bytes) (start rawLen : Nat) (paramEnd : Bytes)
    (isString : Bool) : Nat :=
  let limit := Lib.holdBack '<'.toUInt8 [paramEnd] paramEnd.length raw start rawLen
  let limit := if isString then dsmlEntityStreamSafeLen raw start limit else limit
  utf8StreamSafeLen raw start limit false

/-- `text_stream_safe_limit`; `max_marker` is 80. -/
def textStreamSafeLimit (raw : Bytes) (start rawLen : Nat) (hasTools final : Bool) : Nat :=
  if rawLen ≤ start then rawLen
  else
    match if hasTools then findAnyToolStart (raw.drop start) else none with
    | some tool => trimToolSeparatorWs raw start (start + tool)
    | none =>
      if hasTools && !final then
        let limit := trimToolSeparatorWs raw start rawLen
        let scan := if 80 < rawLen - start then rawLen - 80 else start
        let limit :=
          match Lib.lastIdx '<'.toUInt8 raw scan rawLen with
          | some marker => min marker limit
          | none        => limit
        utf8StreamSafeLen raw start (trimToolSeparatorWs raw start limit) false
      else utf8StreamSafeLen raw start rawLen final

/-! ### Deltas -/

/-- A chunk of the response, after the JSON of the transport is undone. -/
inductive Delta where
  | reasoningContent (text : Bytes)
  | content (text : Bytes)
  | toolCallStart (index : Nat) (name : Bytes)
  | toolCallArgs (index : Nat) (text : Bytes)
  deriving DecidableEq

/-- All reasoning that was sent. -/
def reasoningOf (ds : List Delta) : Bytes :=
  ds.flatMap (fun | .reasoningContent t => t | _ => [])

/-- All content that was sent. -/
def contentOf (ds : List Delta) : Bytes :=
  ds.flatMap (fun | .content t => t | _ => [])

/-- The calls that were started, in order. -/
def startsOf (ds : List Delta) : List (Nat × Bytes) :=
  ds.flatMap (fun | .toolCallStart i name => [(i, name)] | _ => [])

/-- All argument text that was sent for a call. -/
def argsOf (i : Nat) (ds : List Delta) : Bytes :=
  ds.flatMap (fun | .toolCallArgs j t => if j = i then t else [] | _ => [])

/-- `sse_chat_tool_call_args_delta_n`: the bytes go through `xstrndup`. -/
def argsDelta (index : Nat) (text : Bytes) : List Delta :=
  if text = [] then [] else [.toolCallArgs index (cstr text)]

/-! ### Tool calls -/

/-- `dsml_tool_stream_state` -/
inductive DsmlToolStreamState where
  | betweenInvokes
  | betweenParams
  | paramValue
  | done
  | error
  deriving DecidableEq

/-- `openai_tool_stream`, without the ids -/
structure OpenaiToolStream where
  state : DsmlToolStreamState
  syn : DsmlSyntax
  parsePos : Nat
  index : Nat
  active : Bool
  emittedAny : Bool
  argsOpen : Bool
  firstParam : Bool
  paramIsString : Bool
  deriving DecidableEq

/-- All fields zero. -/
def OpenaiToolStream.zero : OpenaiToolStream :=
  ⟨.betweenInvokes, dsmlSyntax, 0, 0, false, false, false, false, false⟩

/-- `openai_tool_stream_init` -/
def openaiToolStreamInit (raw : Bytes) (rawLen pos : Nat) : OpenaiToolStream :=
  match dsmlSyntaxes.find? (fun syn => rawFullLit raw rawLen pos syn.toolCallsStart) with
  | some syn =>
    { OpenaiToolStream.zero with
      active := true, syn := syn, parsePos := pos + syn.toolCallsStart.length }
  | none => { OpenaiToolStream.zero with state := .error, parsePos := pos }

namespace OpenaiToolStream

/-- `openai_tool_stream_fail` -/
def fail (ts : OpenaiToolStream) : OpenaiToolStream := { ts with active := false, state := .error }

/-- `openai_tool_emit_string_value` for a string, else `openai_tool_emit_args_fragment`. -/
def emitValue (ts : OpenaiToolStream) (text : Bytes) : List Delta :=
  if ts.paramIsString then
    if text = [] then []
    else argsDelta ts.index (jsonEscapeFragment (cstr (dsmlUnescapeText text)))
  else argsDelta ts.index text

/-- `openai_tool_emit_param_prefix` -/
def emitParamPrefix (ts : OpenaiToolStream) (name : Bytes) (isString : Bool) : List Delta :=
  argsDelta ts.index
    ((if ts.firstParam then [] else lit ",") ++ jsonEscape name ++ lit ":" ++
      (if isString then lit "\"" else []))

end OpenaiToolStream

/-- How a turn of the loop of `openai_tool_stream_update` ends: it goes on, or it returns. -/
inductive ToolStep where
  | next (ts : OpenaiToolStream) (ds : List Delta)
  | stop (ts : OpenaiToolStream) (ds : List Delta)
  deriving DecidableEq

variable (raw : Bytes) (rawLen : Nat)

/-- `openai_tool_start_invoke`; without the end of the tag nothing moves. -/
def openaiToolStartInvoke (ts : OpenaiToolStream) : ToolStep :=
  match findLitBounded raw rawLen ts.parsePos (lit ">") with
  | none        => .stop ts []
  | some tagEnd =>
    match dsmlAttr (slice raw ts.parsePos (tagEnd + 1)) (lit "name") with
    | none      => .next ts.fail []
    | some name =>
      .next
        { ts with
          emittedAny := true, argsOpen := true, firstParam := true, parsePos := tagEnd + 1,
          state := .betweenParams }
        (.toolCallStart ts.index name :: argsDelta ts.index (lit "\x7b"))

/-- `openai_tool_start_param` -/
def openaiToolStartParam (ts : OpenaiToolStream) : ToolStep :=
  match findLitBounded raw rawLen ts.parsePos (lit ">") with
  | none        => .stop ts []
  | some tagEnd =>
    let tag := slice raw ts.parsePos (tagEnd + 1)
    match dsmlAttr tag (lit "name"), dsmlAttr tag (lit "string") with
    | some name, some isString =>
      .next
        { ts with
          firstParam := false, paramIsString := isString == lit "true", parsePos := tagEnd + 1,
          state := .paramValue }
        (ts.emitParamPrefix name (isString == lit "true"))
    | _, _ => .next ts.fail []

/-- `openai_tool_finish_param` -/
def openaiToolFinishParam (ts : OpenaiToolStream) (valueEnd : Nat) : ToolStep :=
  .next
    { ts with parsePos := valueEnd + ts.syn.paramEnd.length, state := .betweenParams }
    ((if ts.parsePos < valueEnd then ts.emitValue (slice raw ts.parsePos valueEnd) else []) ++
      (if ts.paramIsString then argsDelta ts.index (lit "\"") else []))

/-- The white space loop at the start of a turn between tags. -/
def OpenaiToolStream.skipSpace (ts : OpenaiToolStream) : OpenaiToolStream :=
  { ts with parsePos := Server.skipSpace raw rawLen ts.parsePos }

/-- A turn in `DSML_TOOL_BETWEEN_INVOKES`, behind the white space. -/
def openaiToolBetweenInvokes (ts : OpenaiToolStream) : ToolStep :=
  if rawLen ≤ ts.parsePos then .stop ts []
  else if rawFullLit raw rawLen ts.parsePos ts.syn.toolCallsEnd then
    .stop
      { ts with
        parsePos := ts.parsePos + ts.syn.toolCallsEnd.length, active := false, state := .done } []
  else if rawPartialAny raw rawLen ts.parsePos ts.syn.toolCallsEnd ts.syn.invokeStart then
    .stop ts []
  else if rawFullLit raw rawLen ts.parsePos ts.syn.invokeStart then
    openaiToolStartInvoke raw rawLen ts
  else .stop ts.fail []

/-- A turn in `DSML_TOOL_BETWEEN_PARAMS`, behind the white space. -/
def openaiToolBetweenParams (ts : OpenaiToolStream) : ToolStep :=
  if rawLen ≤ ts.parsePos then .stop ts []
  else if rawFullLit raw rawLen ts.parsePos ts.syn.invokeEnd then
    .next
      { ts with
        argsOpen := false, parsePos := ts.parsePos + ts.syn.invokeEnd.length,
        index := ts.index + 1, state := .betweenInvokes }
      (if ts.argsOpen then argsDelta ts.index (lit "\x7d") else [])
  else if rawPartialAny raw rawLen ts.parsePos ts.syn.invokeEnd ts.syn.paramStart then .stop ts []
  else if rawFullLit raw rawLen ts.parsePos ts.syn.paramStart then
    openaiToolStartParam raw rawLen ts
  else .stop ts.fail []

/-- A turn in `DSML_TOOL_PARAM_VALUE`. -/
def openaiToolParamValue (ts : OpenaiToolStream) : ToolStep :=
  match findLitBounded raw rawLen ts.parsePos ts.syn.paramEnd with
  | some valueEnd => openaiToolFinishParam raw ts valueEnd
  | none =>
    let limit :=
      toolParamValueStreamSafeLen raw ts.parsePos rawLen ts.syn.paramEnd ts.paramIsString
    if ts.parsePos < limit then
      .stop { ts with parsePos := limit } (ts.emitValue (slice raw ts.parsePos limit))
    else .stop ts []

/-- A turn of the loop of `openai_tool_stream_update`. -/
def openaiToolStep (ts : OpenaiToolStream) : ToolStep :=
  match ts.state with
  | .betweenInvokes => openaiToolBetweenInvokes raw rawLen (ts.skipSpace raw rawLen)
  | .betweenParams  => openaiToolBetweenParams raw rawLen (ts.skipSpace raw rawLen)
  | .paramValue     => openaiToolParamValue raw rawLen ts
  | .done           => .stop ts []
  | .error          => .stop ts []

/-- The loop of `openai_tool_stream_update`.  A turn that goes on has moved `parsePos` or ended the
    stream, so `rawLen + 1` turns are enough. -/
def openaiToolLoop : Nat → OpenaiToolStream → OpenaiToolStream × List Delta
  | 0, ts        => (ts, [])
  | fuel + 1, ts =>
    if ts.active && decide (ts.parsePos < rawLen) then
      match openaiToolStep raw rawLen ts with
      | .stop ts' ds => (ts', ds)
      | .next ts' ds =>
        let rest := openaiToolLoop fuel ts'
        (rest.1, ds ++ rest.2)
    else (ts, [])

/-- `openai_tool_stream_update` -/
def openaiToolStreamUpdate (ts : OpenaiToolStream) : OpenaiToolStream × List Delta :=
  openaiToolLoop raw rawLen (rawLen + 1) ts

/-! ### The stream -/

/-- `openai_stream_mode` -/
inductive OpenaiStreamMode where
  | thinking
  | text
  | tool
  | suppress
  deriving DecidableEq

/-- `openai_stream` -/
structure OpenaiStream where
  mode : OpenaiStreamMode
  emitPos : Nat
  active : Bool
  checkedThinkPrefix : Bool
  tool : OpenaiToolStream
  deriving DecidableEq

/-- `openai_stream_start` -/
def openaiStreamStart (thinkModeEnabled : Bool) : OpenaiStream where
  mode := if thinkModeEnabled then .thinking else .text
  emitPos := 0
  active := true
  checkedThinkPrefix := false
  tool := .zero

/-- `sse_chat_delta_n` of the bytes from `emitPos` up to `limit`, if there are any. -/
def chatDelta (delta : Bytes → Delta) (st : OpenaiStream) (limit : Nat) : List Delta :=
  if st.emitPos < limit then [delta (cstr (slice raw st.emitPos limit))] else []

/-- The check of the `<think>` that may stand first; `none` while it can still arrive. -/
def checkThinkPrefix (st : OpenaiStream) (final : Bool) : Option OpenaiStream :=
  if st.checkedThinkPrefix then some st
  else if rawLen < THINK_START.length ∧ (raw.take rawLen).isPrefixOf THINK_START ∧ final = false then
    none
  else if THINK_START.length ≤ rawLen ∧ THINK_START.isPrefixOf raw then
    some { st with emitPos := THINK_START.length, checkedThinkPrefix := true }
  else some { st with checkedThinkPrefix := true }

/-- The reasoning block of `openai_sse_stream_update`: the state after it and what it sends.  The
    mode is still `thinking` where the function returns from inside the block. -/
def openaiReasoningUpdate (st : OpenaiStream) (final : Bool) : OpenaiStream × List Delta :=
  match checkThinkPrefix raw rawLen st final with
  | none    => (st, [])
  | some st =>
    match strstr (raw.drop st.emitPos) THINK_END with
    | some i =>
      let close := st.emitPos + i
      ({ st with emitPos := close + THINK_END.length, mode := .text },
        chatDelta raw .reasoningContent st close)
    | none =>
      if final then
        ({ st with emitPos := max st.emitPos rawLen, mode := .suppress },
          chatDelta raw .reasoningContent st rawLen)
      else
        let hold := THINK_END.length - 1
        let limit :=
          utf8StreamSafeLen raw st.emitPos (if hold < rawLen then rawLen - hold else st.emitPos)
            false
        ({ st with emitPos := max st.emitPos limit }, chatDelta raw .reasoningContent st limit)

/-- The text block of `openai_sse_stream_update`. -/
def openaiTextUpdate (hasTools : Bool) (st : OpenaiStream) (final : Bool) :
    OpenaiStream × List Delta :=
  let limit := textStreamSafeLimit raw st.emitPos rawLen hasTools final
  let ds := chatDelta raw .content st limit
  match if hasTools then findAnyToolStart (raw.drop st.emitPos) else none with
  | some i =>
    let tool := st.emitPos + i
    let ts := openaiToolStreamInit raw rawLen tool
    ({ st with emitPos := tool, tool := ts, mode := if ts.active then .tool else .suppress }, ds)
  | none =>
    ({ st with
      emitPos := max st.emitPos limit, mode := if final then .suppress else st.mode }, ds)

/-- The tool block of `openai_sse_stream_update`. -/
def openaiToolUpdate (st : OpenaiStream) : OpenaiStream × List Delta :=
  let r := openaiToolStreamUpdate raw rawLen st.tool
  ({ st with tool := r.1, mode := if r.1.active then .tool else .suppress }, r.2)

/-- `openai_sse_stream_update` -/
def openaiSseStreamUpdate (hasTools : Bool) (st : OpenaiStream) (final : Bool) :
    OpenaiStream × List Delta :=
  if st.active = false then (st, [])
  else
    let r1 := if st.mode = .thinking then openaiReasoningUpdate raw rawLen st final else (st, [])
    let r2 :=
      if r1.1.mode = .text then openaiTextUpdate raw rawLen hasTools r1.1 final else (r1.1, [])
    let r3 := if r2.1.mode = .tool then openaiToolUpdate raw rawLen r2.1 else (r2.1, [])
    (r3.1, r1.2 ++ r2.2 ++ r3.2)

end DS4.Server
