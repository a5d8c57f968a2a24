import DS4.Server.Prompt

namespace DS4.Server

/-!
# Server — the final parse of a generated message

When a turn is over, its text is read once more from the start: the reasoning, the content and the
tool calls of the response come from this parse. A position in a text is what is left of it.

* `toolCallJsonArgsAdd` — one member of the arguments of a call.
* `parseLeafParamJson`, `parseNestedParamsObject`, `parseParam`, `paramsLoop`, `parseInvoke`,
  `blockLoop` — a block of tool calls.
* `splitReasoningContent`, `findBlock`, `parseGeneratedMessageEx` — the whole message.
* `parseGeneratedMessageForResponse` — the message, or its text when the block is malformed.
-/

/-- `skip_ascii_ws` -/
def skipAsciiWs (p : Bytes) : Bytes := p.dropWhile isspace

/-- `strchr(p, '>')`: the tag up to it, and what follows. -/
def readTag (p : Bytes) : Option (Bytes × Bytes) :=
  (Lib.findSub (lit ">") p).map fun i => (p.take (i + 1), p.drop (i + 1))

/-- `strstr(p, close)`: the text before it, and what follows. -/
def readValue (close p : Bytes) : Option (Bytes × Bytes) :=
  (Lib.findSub close p).map fun i => (p.take i, p.drop (i + close.length))

/-- The text of a value that is no string. -/
def jsonOrNull (value : Bytes) : Bytes :=
  if jsonMinifyRawValue value = [] then lit "null" else jsonMinifyRawValue value

/-- `tool_call_json_args_add` -/
def toolCallJsonArgsAdd (args name value isString : Bytes) : Bytes :=
  args ++ (if args = [] then [] else lit ", ") ++ jsonEscape name ++ lit ": " ++
    if isString = lit "true" then jsonEscape value else jsonOrNull value

/-- The value of a parameter of a type. -/
def paramValue (type raw : Bytes) : Bytes := if type = lit "true" then dsmlUnescapeText raw else raw

/-- `dsml_parse_leaf_param_json`: what follows the parameter, and `out` with it. -/
def parseLeafParamJson (syn : DsmlSyntax) (p out : Bytes) : Option (Bytes × Bytes) :=
  if syn.paramStart.isPrefixOf p then
    match readTag p with
    | none              => none
    | some (tag, value) =>
      match dsmlAttr tag (lit "name") with
      | none      => none
      | some name =>
        let type := (dsmlAttr tag (lit "string")).getD (lit "true")
        (readValue syn.paramEnd value).map fun (raw, rest) =>
          (rest, toolCallJsonArgsAdd out name (paramValue type raw) type)
  else none

/-- The loop of `dsml_parse_nested_params_object`. -/
def nestedLoop (syn : DsmlSyntax) : Nat → Bytes → Bytes → Option (Bytes × Bytes)
  | 0, _, _              => none
  | fuel + 1, p, members =>
    let p := skipAsciiWs p
    if syn.paramStart.isPrefixOf p then
      match parseLeafParamJson syn p members with
      | none                 => none
      | some (rest, members) => nestedLoop syn fuel rest members
    else some (p, members)

/-- `dsml_parse_nested_params_object`: what follows the parameters, and the object. -/
def parseNestedParamsObject (syn : DsmlSyntax) (p : Bytes) : Option (Bytes × Bytes) :=
  match nestedLoop syn (p.length + 1) p [] with
  | none                 => none
  | some (rest, members) => if members = [] then none else some (rest, lit "\x7b" ++ members ++ lit "\x7d")

/-- One parameter of a call, behind the check of its first bytes. -/
def parseParam (syn : DsmlSyntax) (p args : Bytes) : Option (Bytes × Bytes) :=
  match readTag p with
  | none              => none
  | some (tag, value) =>
    match dsmlAttr tag (lit "name") with
    | none      => none
    | some name =>
      let isString := dsmlAttr tag (lit "string")
      if isString = none ∧ syn.paramStart.isPrefixOf (skipAsciiWs value) then
        (parseNestedParamsObject syn value).map fun (rest, nested) =>
          let p := skipAsciiWs rest
          (if syn.paramEnd.isPrefixOf p then p.drop syn.paramEnd.length else p,
            toolCallJsonArgsAdd args name nested (lit "false"))
      else
        let type := isString.getD (lit "true")
        (readValue syn.paramEnd value).map fun (raw, rest) =>
          (rest, toolCallJsonArgsAdd args name (paramValue type raw) type)

/-- The loop over the parameters of a call: what follows the call, and the arguments. -/
def paramsLoop (syn : DsmlSyntax) : Nat → Bytes → Bytes → Option (Bytes × Bytes)
  | 0, _, _           => none
  | fuel + 1, p, args =>
    let p := skipAsciiWs p
    if syn.invokeEnd.isPrefixOf p then some (p.drop syn.invokeEnd.length, args)
    else if syn.paramStart.isPrefixOf p then
      match parseParam syn p args with
      | none              => none
      | some (rest, args) => paramsLoop syn fuel rest args
    else none

/-- One call: what follows it, and the call. -/
def parseInvoke (syn : DsmlSyntax) (p : Bytes) : Option (Bytes × ToolCall) :=
  if syn.invokeStart.isPrefixOf p then
    match readTag p with
    | none             => none
    | some (tag, rest) =>
      match dsmlAttr tag (lit "name") with
      | none      => none
      | some name =>
        (paramsLoop syn (rest.length + 1) rest []).map fun (rest, args) =>
          (rest, ⟨name, lit "\x7b" ++ args ++ lit "\x7d"⟩)
  else none

/-- The loop over the calls of a block: what follows the block, and the calls. -/
def blockLoop (syn : DsmlSyntax) : Nat → Bytes → List ToolCall → Option (Bytes × List ToolCall)
  | 0, _, _            => none
  | fuel + 1, p, calls =>
    let p := skipAsciiWs p
    if syn.toolCallsEnd.isPrefixOf p then some (p.drop syn.toolCallsEnd.length, calls)
    else
      match parseInvoke syn p with
      | none            => none
      | some (rest, tc) => blockLoop syn fuel rest (calls ++ [tc])

/-! ### The message -/

/-- `split_reasoning_content`, of a text of the given length: the content and the reasoning. -/
def splitReasoningContent (s : Bytes) : Bytes × Option Bytes :=
  let body := if THINK_START.isPrefixOf s then s.drop THINK_START.length else s
  match strstr body THINK_END with
  | some i => (body.drop (i + THINK_END.length), some (body.take i))
  | none   => (s, none)

/-- The openings of a block in the order in which they are looked for, with their spelling. -/
def blockOpenings : List (Bytes × DsmlSyntax) :=
  [(lit "\n\n" ++ TOOL_CALLS_START, dsmlSyntax), (TOOL_CALLS_START, dsmlSyntax),
    (lit "\n\n" ++ TOOL_CALLS_START_SHORT, shortSyntax), (TOOL_CALLS_START_SHORT, shortSyntax),
    (lit "\n\n" ++ TOOL_CALLS_START_PLAIN, plainSyntax), (TOOL_CALLS_START_PLAIN, plainSyntax)]

/-- Where a block starts, and its spelling. -/
def findBlock (s : Bytes) : Option (Nat × DsmlSyntax) :=
  blockOpenings.findSome? fun o => (strstr s o.1).map fun i => (i, o.2)

/-- What is read of a message. -/
structure Message where
  content : Bytes
  reasoning : Option Bytes
  calls : ToolCalls
  deriving DecidableEq

/-- A message without a block. -/
def plainMessage (text : Bytes) : Message :=
  ⟨(splitReasoningContent text).1, (splitReasoningContent text).2, ⟨[], []⟩⟩

/-- The block at `start`, up to its end: what it is, and its calls. -/
def parseBlock (syn : DsmlSyntax) (start : Bytes) : Option (Bytes × List ToolCall) :=
  match strstr start syn.toolCallsStart with
  | none   => none
  | some i =>
    let p := start.drop (i + syn.toolCallsStart.length)
    (blockLoop syn (p.length + 1) p []).map fun (rest, calls) => (start.take (start.length - rest.length), calls)

/-- Where the search for a block starts: behind the last `</think>`, if it has to be closed. -/
def toolSearch (text : Bytes) (requireThinkingClosed : Bool) : Option Nat :=
  if requireThinkingClosed then (findLastSubstr text THINK_END).map (· + THINK_END.length) else some 0

/-- `parse_generated_message_ex`, of a C string -/
def parseMessage (text : Bytes) (requireThinkingClosed : Bool) : Option Message :=
  match toolSearch text requireThinkingClosed with
  | none   => some (plainMessage text)
  | some k =>
    match findBlock (text.drop k) with
    | none          => some (plainMessage text)
    | some (i, syn) =>
      (parseBlock syn (text.drop (k + i))).map fun (raw, calls) =>
        let split := splitReasoningContent (text.take (trimToolSeparatorWs text 0 (k + i)))
        ⟨split.1, split.2, ⟨calls, raw⟩⟩

/-- `parse_generated_message_ex` -/
def parseGeneratedMessageEx (text : Bytes) (requireThinkingClosed : Bool) : Option Message :=
  parseMessage (cstr text) requireThinkingClosed

/-! ### Recovery -/

/-- What a job makes of the text of a turn. -/
structure Response where
  parsed : Bool
  message : Message
  finish : Bytes
  err : Option Bytes
  recovered : Bool
  deriving DecidableEq

/-- `tool_parse_failure_recovery_finish` -/
def toolParseFailureRecoveryFinish (finish : Bytes) : Bytes :=
  if finish = lit "length" then lit "length" else lit "stop"

/-- `parse_generated_message_for_response` -/
def parseGeneratedMessageForResponse (text : Bytes) (hasTools sawToolStart requireThinkingClosed : Bool)
    (finish : Bytes) : Response :=
  match parseGeneratedMessageEx text requireThinkingClosed with
  | some m => ⟨true, m, finish, none, false⟩
  | none   =>
    let raw : Message := ⟨cstr text, none, ⟨[], []⟩⟩
    if hasTools ∧ sawToolStart ∧ finish ≠ lit "error" then
      ⟨false, raw, toolParseFailureRecoveryFinish finish, some (lit "invalid tool call"), true⟩
    else ⟨false, raw, finish, none, false⟩

/-- A parameter that holds a nested object. -/
example :
    parseMessage
        (lit "<tool_calls><invoke name=\"f\"><parameter name=\"b\"><parameter name=\"c\">1</parameter></parameter></invoke></tool_calls>")
        false =
      some ⟨[], none, ⟨[⟨lit "f", lit "\x7b\"b\": \x7b\"c\":\"1\"\x7d\x7d"⟩],
        lit "<tool_calls><invoke name=\"f\"><parameter name=\"b\"><parameter name=\"c\">1</parameter></parameter></invoke></tool_calls>"⟩⟩ := by
  decide +kernel

end DS4.Server
