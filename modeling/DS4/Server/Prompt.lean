import DS4.Server.Json

namespace DS4.Server

/-!
# Server — prompts

The renderers of a chat history. A NULL string is read as the empty one everywhere here.

* `ChatMsg`, `ToolCalls` — the history.
* `appendDsmlToolCallsText` — the tool calls of an assistant turn.
* `renderChatPromptText` — the whole history; `renderLiveToolTail` — the new messages only.
* `buildToolCheckpointSuffix`, `buildToollessThinkingVisibleText` — the text keys of a checkpoint.
-/

/-- `ds4_think_mode` -/
inductive ThinkMode where
  | none
  | high
  | max
  deriving DecidableEq

/-- `ds4_think_mode_enabled` -/
def ThinkMode.enabled : ThinkMode → Bool
  | .none => false
  | .high => true
  | .max  => true

/-- `tool_call` -/
structure ToolCall where
  name : Bytes
  arguments : Bytes
  deriving DecidableEq

/-- `tool_calls` -/
structure ToolCalls where
  v : List ToolCall
  rawDsml : Bytes
  deriving DecidableEq

/-- `chat_msg` -/
structure ChatMsg where
  role : Bytes
  content : Bytes
  reasoning : Bytes
  calls : ToolCalls
  deriving DecidableEq

/-! ### Tool calls -/

/-- A text in which the first byte of every `close` is replaced. -/
def protectClosing (close replacement : Bytes) : Bytes → Bytes
  | []     => []
  | c :: s =>
    if close.isPrefixOf (c :: s) then replacement ++ protectClosing close replacement s
    else c :: protectClosing close replacement s

/-- `append_dsml_attr_escaped` -/
def appendDsmlAttrEscaped (s : Bytes) : Bytes :=
  s.flatMap fun c =>
    if c = '&'.toUInt8 then lit "&amp;"
    else if c = '<'.toUInt8 then lit "&lt;"
    else if c = '>'.toUInt8 then lit "&gt;"
    else if c = '"'.toUInt8 then lit "&quot;"
    else [c]

/-- `append_dsml_parameter_text` -/
def appendDsmlParameterText : Bytes → Bytes :=
  protectClosing (lit "</｜DSML｜parameter>") (lit "&lt;")

/-- `append_dsml_json_literal` -/
def appendDsmlJsonLiteral : Bytes → Bytes :=
  protectClosing (lit "</｜DSML｜parameter>") (lit "\\u003c")

/-- `append_tool_result_text` -/
def appendToolResultText : Bytes → Bytes :=
  protectClosing (lit "</tool_result>") (lit "&lt;")

/-- `append_dsml_arg` -/
def appendDsmlArg (arg : JsonArg) : Bytes :=
  lit "<｜DSML｜parameter name=\"" ++ appendDsmlAttrEscaped arg.key ++ lit "\" string=\""
    ++ (if arg.isString then lit "true" else lit "false") ++ lit "\">"
    ++ (if arg.isString then appendDsmlParameterText arg.value
        else appendDsmlJsonLiteral arg.value)
    ++ lit "</｜DSML｜parameter>\n"

/-- `append_dsml_arguments_from_json`, without a schema order. -/
def appendDsmlArgumentsFromJson (json : Bytes) : Option Bytes :=
  (jsonArgsParse json).map (fun args => args.flatMap appendDsmlArg)

/-- One call of `append_dsml_tool_calls_text`. -/
def appendDsmlToolCall (tc : ToolCall) : Bytes :=
  lit "<｜DSML｜invoke name=\"" ++ appendDsmlAttrEscaped tc.name ++ lit "\">\n"
    ++ (match appendDsmlArgumentsFromJson tc.arguments with
        | some params => params
        | none =>
          lit "<｜DSML｜parameter name=\"arguments\" string=\"true\">"
            ++ appendDsmlParameterText tc.arguments ++ lit "</｜DSML｜parameter>\n")
    ++ lit "</｜DSML｜invoke>\n"

/-- `append_dsml_tool_calls_text` -/
def appendDsmlToolCallsText (calls : ToolCalls) : Bytes :=
  if calls.v = [] then []
  else if calls.rawDsml ≠ [] then calls.rawDsml
  else
    lit "\n\n<｜DSML｜tool_calls>\n" ++ calls.v.flatMap appendDsmlToolCall
      ++ lit "</｜DSML｜tool_calls>"

/-! ### Roles -/

/-- `role_is_system` -/
def roleIsSystem (role : Bytes) : Bool := role = lit "system" || role = lit "developer"

/-- The roles of tool results. -/
def roleIsTool (role : Bytes) : Bool := role = lit "tool" || role = lit "function"

/-- `role_is_user_like` -/
def roleIsUserLike (role : Bytes) : Bool := role = lit "user" || roleIsTool role

/-- The role of the model's turns. -/
def roleIsAssistant (role : Bytes) : Bool := role = lit "assistant"

/-- `chat_history_uses_tool_context` -/
def chatHistoryUsesToolContext (msgs : List ChatMsg) (toolSchemas : Bytes) : Bool :=
  toolSchemas ≠ [] ||
    msgs.any fun m => (roleIsAssistant m.role && m.calls.v ≠ []) || roleIsTool m.role

/-! ### The whole history -/

/-- The sentence tokens and the turn headers. -/
def BOS : Bytes := lit "<｜begin▁of▁sentence｜>"
/-- The end of a turn of the model. -/
def EOS : Bytes := lit "<｜end▁of▁sentence｜>"
/-- The header of a user turn. -/
def USER : Bytes := lit "<｜User｜>"
/-- The header of a turn of the model. -/
def ASSISTANT : Bytes := lit "<｜Assistant｜>"

/-- `ds4_think_max_prefix` -/
def thinkMaxPrefix : Bytes := lit
  "Reasoning Effort: Absolute maximum with no shortcuts permitted.\nYou MUST be very thorough in your thinking and comprehensively decompose the problem to resolve the root cause, rigorously stress-testing your logic against all potential paths, edge cases, and adversarial scenarios.\nExplicitly write out your entire deliberation process, documenting every intermediate step, considered alternative, and rejected hypothesis to ensure absolutely no assumption is left unchecked.\n\n"

/-- `append_tools_prompt_text` -/
def appendToolsPromptText (toolSchemas : Bytes) : Bytes :=
  if toolSchemas = [] then []
  else
    lit "## Tools\n\nYou have access to a set of tools to help answer the user question. You can invoke tools by writing a \"<｜DSML｜tool_calls>\" block like the following:\n\n<｜DSML｜tool_calls>\n<｜DSML｜invoke name=\"$TOOL_NAME\">\n<｜DSML｜parameter name=\"$PARAMETER_NAME\" string=\"true|false\">$PARAMETER_VALUE</｜DSML｜parameter>\n...\n</｜DSML｜invoke>\n<｜DSML｜invoke name=\"$TOOL_NAME2\">\n...\n</｜DSML｜invoke>\n</｜DSML｜tool_calls>\n\n"
      ++ lit "String parameters should be specified as raw text and set `string=\"true\"`. Preserve characters such as `>`, `&`, and `&&` exactly; never replace normal string characters with XML or HTML entity escapes. Only if a string value itself contains the exact closing parameter tag `</｜DSML｜parameter>`, write that tag as `&lt;/｜DSML｜parameter>` inside the value. For all other types (numbers, booleans, arrays, objects), pass the value in JSON format and set `string=\"false\"`.\n\nIf thinking_mode is enabled (triggered by <think>), you MUST output your complete reasoning inside <think>...</think> BEFORE any tool calls or final response.\n\nOtherwise, output directly after </think> with tool calls or final response.\n\n### Available Tool Schemas\n\n"
      ++ toolSchemas
      ++ lit "\n\nYou MUST strictly follow the above defined tool name and parameter schemas to invoke tool calls. Use the exact parameter names from the schemas."

/-- The system text of `render_chat_prompt_text`: the tools, then the system messages. -/
def systemText (msgs : List ChatMsg) (toolSchemas : Bytes) : Bytes :=
  msgs.foldl
    (fun sys m =>
      if roleIsSystem m.role then (if sys = [] then sys else sys ++ lit "\n\n") ++ m.content
      else sys)
    (appendToolsPromptText toolSchemas)

/-- `last_user_idx` after a scan that starts at index `i`. -/
def lastUserIdxFrom (i : Nat) (last : Int) : List ChatMsg → Int
  | []      => last
  | m :: ms => lastUserIdxFrom (i + 1) (if roleIsUserLike m.role then (i : Int) else last) ms

/-- `last_user_idx` -/
def lastUserIdx (msgs : List ChatMsg) : Int := lastUserIdxFrom 0 (-1) msgs

/-- What the rendering loops carry from message to message. -/
structure Rendering where
  out : Bytes
  pendingAssistant : Bool
  pendingToolResult : Bool
  deriving DecidableEq

namespace Rendering

/-- A user message. -/
def user (r : Rendering) (content : Bytes) : Rendering where
  out := r.out ++ USER ++ content
  pendingAssistant := true
  pendingToolResult := false

/-- A tool result; consecutive results share one user turn. -/
def toolResult (r : Rendering) (content : Bytes) : Rendering where
  out := (if r.pendingToolResult then r.out else r.out ++ USER) ++ lit "<tool_result>"
    ++ appendToolResultText content ++ lit "</tool_result>"
  pendingAssistant := true
  pendingToolResult := true

/-- An assistant turn; `head` follows its header. -/
def assistant (r : Rendering) (head : Bytes) (m : ChatMsg) : Rendering where
  out := (if r.pendingAssistant then r.out ++ ASSISTANT ++ head else r.out) ++ m.content
    ++ appendDsmlToolCallsText m.calls ++ EOS
  pendingAssistant := false
  pendingToolResult := false

/-- The body of the two rendering loops. Other roles are not rendered. -/
def msg (r : Rendering) (head : Bytes) (m : ChatMsg) : Rendering :=
  if roleIsSystem m.role then r
  else if m.role = lit "user" then r.user m.content
  else if roleIsTool m.role then r.toolResult m.content
  else if roleIsAssistant m.role then r.assistant head m
  else r

/-- The rendering loop over the messages from index `i`. -/
def msgs (head : Nat → ChatMsg → Bytes) (i : Nat) (r : Rendering) : List ChatMsg → Rendering
  | []      => r
  | m :: ms => msgs head (i + 1) (r.msg (head i m) m) ms

/-- The end of the two renderers: the header of the turn to generate. -/
def finish (r : Rendering) (think : Bool) : Bytes :=
  if r.pendingAssistant then
    r.out ++ ASSISTANT ++ (if think then THINK_START else THINK_END)
  else r.out

end Rendering

/-- The head of the assistant turn at index `i` in `render_chat_prompt_text`. -/
def chatHead (think toolContext : Bool) (lastUser : Int) (i : Nat) (m : ChatMsg) : Bytes :=
  if think then
    if toolContext ∨ lastUser < (i : Int) then THINK_START ++ m.reasoning ++ THINK_END
    else THINK_END
  else THINK_END

/-- The state in which `render_chat_prompt_text` enters its loop. -/
def chatStart (msgs : List ChatMsg) (toolSchemas : Bytes) (thinkMode : ThinkMode) : Rendering where
  out := BOS ++ (if thinkMode = .max then thinkMaxPrefix else []) ++ systemText msgs toolSchemas
  pendingAssistant := false
  pendingToolResult := false

/-- The loop of `render_chat_prompt_text`. -/
def chatLoop (msgs : List ChatMsg) (toolSchemas : Bytes) (thinkMode : ThinkMode) : Rendering :=
  (chatStart msgs toolSchemas thinkMode).msgs
    (chatHead thinkMode.enabled (chatHistoryUsesToolContext msgs toolSchemas) (lastUserIdx msgs))
    0 msgs

/-- `render_chat_prompt_text` -/
def renderChatPromptText (msgs : List ChatMsg) (toolSchemas : Bytes) (thinkMode : ThinkMode) :
    Bytes :=
  (chatLoop msgs toolSchemas thinkMode).finish thinkMode.enabled

/-! ### The live tail -/

/-- The head of an assistant turn in `render_live_tool_tail`. -/
def tailHead (think : Bool) (m : ChatMsg) : Bytes :=
  if think then THINK_START ++ m.reasoning ++ THINK_END else THINK_END

/-- `render_live_tool_tail` -/
def renderLiveToolTail (msgs : List ChatMsg) (start : Nat) (thinkMode : ThinkMode) : Bytes :=
  let r : Rendering := { out := EOS, pendingAssistant := false, pendingToolResult := false }
  (r.msgs (fun _ m => tailHead thinkMode.enabled m) start (msgs.drop start)).finish
    thinkMode.enabled

/-! ### Checkpoint keys -/

/-- `build_tool_checkpoint_suffix` -/
def buildToolCheckpointSuffix (thinkMode : ThinkMode) (content reasoning : Bytes)
    (calls : ToolCalls) : Bytes :=
  (if thinkMode.enabled then reasoning ++ THINK_END else []) ++ content
    ++ appendDsmlToolCallsText calls ++ EOS

/-- `build_toolless_thinking_visible_text` -/
def buildToollessThinkingVisibleText (promptText : Bytes) (thinkMode : ThinkMode)
    (content : Bytes) : Option Bytes :=
  if thinkMode.enabled = false then none
  else if THINK_START.isSuffixOf promptText then
    some (promptText.take (promptText.length - THINK_START.length) ++ THINK_END ++ content ++ EOS)
  else none

end DS4.Server
