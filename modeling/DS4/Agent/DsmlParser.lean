import DS4.Agent.FileTools
import DS4.Lib.Find

namespace DS4.Agent.Dsml

/-!
# Agent — the parser of tool calls

The parser keeps the text of a block and parses as much of it as it can after each byte.  A parser also
lists the pieces of the text that it has consumed.

* `closeTagAt`, `findCloseTag`, `parseAttr` — closing tags and attributes.
* `Parser`, `agentDsmlParse`, `agentDsmlFeed` — the parser.
-/

open DS4.Tokenizer DS4.Lib

/-! ### Tags -/

/-- `strstr(s, pat)`, as an offset. -/
def strstr (s pat : Bytes) : Option Nat := findSub pat (cstr s)

/-- `dsml_bar` -/
def BAR : Bytes := lit "｜"

def CLOSE : Bytes := lit "</｜DSML｜"

/-- `agent_dsml_close_tag_at`: the length of a closing tag. -/
def closeTagAt (s name : Bytes) : Option Nat :=
  if (CLOSE ++ name).isPrefixOf s then
    let p := (s.drop (CLOSE ++ name).length).dropWhile isBlank
    let p := if BAR.isPrefixOf p then p.drop BAR.length else p
    let p := p.dropWhile isBlank
    if p.head? = some '>'.toUInt8 then some (s.length - p.length + 1) else none
  else none

/-- The loop of `agent_dsml_find_close_tag`. -/
def findCloseTagLoop (name : Bytes) : Nat → Bytes → Option (Nat × Nat)
  | 0, _ => none
  | fuel + 1, s =>
    match strstr s CLOSE with
    | none   => none
    | some k =>
      match closeTagAt (s.drop k) name with
      | some n => some (k, n)
      | none   => (findCloseTagLoop name fuel (s.drop (k + 1))).map fun r => (k + 1 + r.1, r.2)

/-- `agent_dsml_find_close_tag`: where the first closing tag is, and its length. -/
def findCloseTag (s name : Bytes) : Option (Nat × Nat) := findCloseTagLoop name (s.length + 1) s

/-- `agent_parse_attr` -/
def parseAttr (tag name : Bytes) : Option Bytes :=
  match strstr tag (name ++ lit "=\"") with
  | none   => none
  | some i =>
    let p := tag.drop (i + (name ++ lit "=\"").length)
    match strstr p (lit "\"") with
    | none   => none
    | some j => some (p.take j)

/-! ### The parser -/

/-- `agent_tool_arg` -/
structure ToolArg where
  name     : Bytes
  value    : Bytes
  isString : Bool
deriving DecidableEq, Repr

/-- `agent_tool_call` -/
structure ToolCall where
  name : Option Bytes
  args : List ToolArg
deriving DecidableEq, Repr

/-- What the tools take of a call. -/
def ToolCall.toAgent (call : ToolCall) : DS4.Agent.ToolCall where
  name := call.name
  args := call.args.map fun a => (a.name, a.value)

/-- A piece of the text of a block: a blank, an opening tag, a value with its closing tag, or a closing tag. -/
inductive Piece
  | blank (c : UInt8)
  | invoke (tag : Bytes)
  | param (tag : Bytes)
  | value (v close : Bytes)
  | invokeEnd (close : Bytes)
  | blockEnd (close : Bytes)
deriving DecidableEq, Repr

def Piece.text : Piece → Bytes
  | .blank c         => [c]
  | .invoke tag      => tag
  | .param tag       => tag
  | .value v close   => v ++ close
  | .invokeEnd close => close
  | .blockEnd close  => close

/-- `agent_dsml_state` -/
inductive State
  | search
  | structural
  | paramValue
  | done
  | error
deriving DecidableEq, Repr

/-- `agent_dsml_parser`; `consumed` lists the pieces that were parsed. -/
structure Parser where
  state           : State
  searchTail      : Bytes
  raw             : Bytes
  parsePos        : Nat
  current         : ToolCall
  paramName       : Option Bytes
  paramIsString   : Bool
  paramValueStart : Nat
  calls           : List ToolCall
  error           : Bytes
  consumed        : List Piece
deriving DecidableEq, Repr

/-- A parser after `agent_dsml_parser_reset`. -/
def Parser.init : Parser where
  state := .search
  searchTail := []
  raw := []
  parsePos := 0
  current := ⟨none, []⟩
  paramName := none
  paramIsString := false
  paramValueStart := 0
  calls := []
  error := []
  consumed := []

/-- `agent_dsml_raw_append` of one byte. -/
def Parser.push (p : Parser) (c : UInt8) : Parser := { p with raw := p.raw ++ [c] }

/-- What is left of the text. -/
def Parser.rest (p : Parser) : Bytes := p.raw.drop p.parsePos

/-- `agent_tool_call_add_arg` -/
def ToolCall.addArg (call : ToolCall) (a : ToolArg) : ToolCall := { call with args := call.args ++ [a] }

/-- `agent_tool_calls_push`: a call without a name is not pushed, and stays. -/
def pushCall (calls : List ToolCall) (call : ToolCall) : List ToolCall × ToolCall :=
  if call.name = none then (calls, call) else (calls ++ [call], ⟨none, []⟩)

/-- A piece is consumed. -/
def Parser.advance (p : Parser) (piece : Piece) : Parser :=
  { p with parsePos := p.parsePos + piece.text.length, consumed := p.consumed ++ [piece] }

/-- The end of a value. -/
def Parser.endValue (p : Parser) (i n : Nat) : Parser :=
  let v := p.raw.drop p.paramValueStart
  let a : ToolArg := ⟨p.paramName.getD [], v.take i, p.paramIsString⟩
  { p with
    current := p.current.addArg a
    paramName := none
    parsePos := p.paramValueStart + i + n
    state := .structural
    consumed := p.consumed ++ [.value (v.take i) ((v.drop i).take n)] }

/-- `</invoke>` or `</tool_calls>` -/
def Parser.endCall (p : Parser) (piece : Piece) (state : State) : Parser :=
  let pushed := pushCall p.calls p.current
  { p.advance piece with calls := pushed.1, current := pushed.2, state := state }

/-- `agent_dsml_set_error` -/
def Parser.setError (p : Parser) (msg : Bytes) : Parser := { p with state := .error, error := msg }

def INVOKE_START : Bytes := lit "<｜DSML｜invoke"

def PARAM_START : Bytes := lit "<｜DSML｜parameter"

/-- An opening tag. -/
def Parser.openTag (p : Parser) (tag : Bytes) : Parser :=
  if INVOKE_START.isPrefixOf tag then
    -- the call that is still open is freed
    match parseAttr tag (lit "name") with
    | none      => { p with current := ⟨none, []⟩ }.setError (lit "tool invoke without name")
    | some name => { p.advance (.invoke tag) with current := ⟨some name, []⟩ }
  else if PARAM_START.isPrefixOf tag then
    let p := { p with paramIsString := parseAttr tag (lit "string") = some (lit "true") }
    match parseAttr tag (lit "name") with
    | none      => { p with paramName := none }.setError (lit "tool parameter without name")
    | some name =>
      { p.advance (.param tag) with
        paramName := some name, paramValueStart := p.parsePos + tag.length, state := .paramValue }
  else p.setError (lit "unexpected DSML tag: " ++ tag.take 80)

/-- The blanks in front of a tag. -/
def Parser.skipBlanks (p : Parser) : Parser :=
  let blanks := p.rest.takeWhile isBlank
  { p with
    parsePos := p.parsePos + blanks.length
    consumed := p.consumed ++ blanks.map .blank }

/-- What stands behind the blanks: `none` while it is not complete. -/
def Parser.tagStep (p : Parser) : Option Parser :=
  match closeTagAt p.rest (lit "tool_calls") with
  | some n => some (p.endCall (.blockEnd (p.rest.take n)) .done)
  | none   =>
    match closeTagAt p.rest (lit "invoke") with
    | some n => some (p.endCall (.invokeEnd (p.rest.take n)) .structural)
    | none   =>
      match strstr p.rest (lit ">") with
      | none   => none
      | some k => some (p.openTag (p.rest.take (k + 1)))

/-- One round of the loop of `agent_dsml_parse`, and whether there is another one. -/
def Parser.round (p : Parser) : Parser × Bool :=
  match p.state with
  | .paramValue =>
    match findCloseTag (p.raw.drop p.paramValueStart) (lit "parameter") with
    | none        => (p, false)
    | some (i, n) => (p.endValue i n, true)
  | .structural =>
    let p := p.skipBlanks
    if p.parsePos ≥ p.raw.length then (p, false)
    else
      match p.tagStep with
      | none   => (p, false)
      | some q => (q, true)
  | _ => (p, false)

/-- The loop of `agent_dsml_parse`. -/
def parseLoop : Nat → Parser → Parser
  | 0, p        => p
  | fuel + 1, p => if p.round.2 then parseLoop fuel p.round.1 else p.round.1

/-- `agent_dsml_parse`; each round but the last consumes a byte at least. -/
def agentDsmlParse (p : Parser) : Parser := parseLoop (p.raw.length - p.parsePos + 1) p

def START : Bytes := lit "<｜DSML｜tool_calls>"

/-- `agent_dsml_start` -/
def agentDsmlStart (p : Parser) : Parser :=
  { p with state := .structural, searchTail := [], raw := p.raw ++ START, parsePos := START.length }

/-- The body of the loop of `agent_dsml_feed`. -/
def feedByte (p : Parser) (c : UInt8) : Parser :=
  if p.state = .search then
    let tail := (if p.searchTail.length = 64 then p.searchTail.tail else p.searchTail) ++ [c]
    if START.isSuffixOf tail then agentDsmlStart { p with searchTail := tail } else { p with searchTail := tail }
  else agentDsmlParse (p.push c)

/-- `agent_dsml_feed` -/
def agentDsmlFeed (p : Parser) (s : Bytes) : Parser :=
  if p.state = .done ∨ p.state = .error then p else s.foldl feedByte p

end DS4.Agent.Dsml
