import DS4.Lib.Holdback
import DS4.Server.Text

namespace DS4.Server

/-!
# Server — DSML tool-call blocks

The pieces that the stream, the final parser and the renderer share.

* `DsmlSyntax` — the markers of one spelling of a block; `dsmlSyntaxes` — the three spellings.
* `slice`, `rawFullLit`, `rawPartialLit`, `findLitBounded` — bounded searches in a buffer.
* `dsmlUnescapeText`, `dsmlAttr` — entities and attributes.
* `jsonEscape` — JSON string literals.
* `DsmlSyntax.Known` — what the spellings have in common: every marker starts with `<` and has no
  other `<`.
-/

/-! ### Markers -/

/-- `dsml_syntax` -/
structure DsmlSyntax where
  toolCallsStart : Bytes
  toolCallsEnd : Bytes
  invokeStart : Bytes
  invokeEnd : Bytes
  paramStart : Bytes
  paramEnd : Bytes
  deriving DecidableEq

/-- The markers of a spelling whose tag names follow `bar`. -/
def DsmlSyntax.spelled (bar : Bytes) : DsmlSyntax where
  toolCallsStart := lit "<" ++ bar ++ lit "tool_calls>"
  toolCallsEnd := lit "</" ++ bar ++ lit "tool_calls>"
  invokeStart := lit "<" ++ bar ++ lit "invoke"
  invokeEnd := lit "</" ++ bar ++ lit "invoke>"
  paramStart := lit "<" ++ bar ++ lit "parameter"
  paramEnd := lit "</" ++ bar ++ lit "parameter>"

/-- `DS4_TOOL_CALLS_START`, …, `DS4_PARAM_END` -/
def dsmlSyntax : DsmlSyntax := .spelled DSML
/-- `DS4_TOOL_CALLS_START_SHORT`, …, `DS4_PARAM_END_SHORT` -/
def shortSyntax : DsmlSyntax := .spelled DSML_SHORT
/-- `<tool_calls>`, …, `</parameter>` -/
def plainSyntax : DsmlSyntax := .spelled []

/-- The spellings, in the order in which the stream tries them. -/
def dsmlSyntaxes : List DsmlSyntax := [dsmlSyntax, shortSyntax, plainSyntax]

/-! ### Buffers -/

/-- The bytes of `raw` from `a` up to `b`. -/
def slice (raw : Bytes) (a b : Nat) : Bytes := (raw.take b).drop a

/-- `raw_full_lit` -/
def rawFullLit (raw : Bytes) (rawLen pos : Nat) (pat : Bytes) : Bool :=
  decide (pos ≤ rawLen) && pat.isPrefixOf (slice raw pos rawLen)

/-- `raw_partial_lit` -/
def rawPartialLit (raw : Bytes) (rawLen pos : Nat) (pat : Bytes) : Bool :=
  decide (pos ≤ rawLen ∧ rawLen - pos < pat.length) && (slice raw pos rawLen).isPrefixOf pat

/-- `raw_partial_any` -/
def rawPartialAny (raw : Bytes) (rawLen pos : Nat) (a b : Bytes) : Bool :=
  rawPartialLit raw rawLen pos a || rawPartialLit raw rawLen pos b

/-- `find_lit_bounded`, and `memchr` for a pattern of one byte: a position in `raw`. -/
def findLitBounded (raw : Bytes) (rawLen pos : Nat) (pat : Bytes) : Option Nat :=
  (Lib.findSub pat (slice raw pos rawLen)).map (pos + ·)

/-- The loop that steps over white space. -/
def skipSpace (raw : Bytes) (rawLen pos : Nat) : Nat :=
  pos + ((slice raw pos rawLen).takeWhile isspace).length

/-- `trim_tool_separator_ws` -/
def trimToolSeparatorWs (raw : Bytes) (start : Nat) : Nat → Nat
  | 0         => 0
  | limit + 1 =>
    if start < limit + 1 ∧ isspace (raw.getD limit 0) then trimToolSeparatorWs raw start limit
    else limit + 1

/-! ### Entities and attributes -/

/-- The entities of `dsml_unescape_text`, in its order. -/
def dsmlEntities : List (Bytes × UInt8) :=
  [(lit "&amp;", '&'.toUInt8), (lit "&lt;", '<'.toUInt8), (lit "&gt;", '>'.toUInt8),
    (lit "&quot;", '"'.toUInt8), (lit "&apos;", '\''.toUInt8)]

/-- The entity that a text starts with. -/
def entityAt (s : Bytes) : Option (Bytes × UInt8) :=
  dsmlEntities.find? (fun e => e.1.isPrefixOf s)

/-- The loop of `dsml_unescape_text`; the counter is how many bytes of an entity are still to be
    stepped over. -/
def unescapeFrom : Nat → Bytes → Bytes
  | _, []         => []
  | k + 1, _ :: s => unescapeFrom k s
  | 0, c :: s     =>
    match entityAt (c :: s) with
    | some e => e.2 :: unescapeFrom (e.1.length - 1) s
    | none   => c :: unescapeFrom 0 s

/-- `dsml_unescape_text` -/
def dsmlUnescapeText (s : Bytes) : Bytes := unescapeFrom 0 (cstr s)

/-- `dsml_attr` -/
def dsmlAttr (tag name : Bytes) : Option Bytes :=
  let pat := name ++ lit "=\""
  match strstr tag pat with
  | none   => none
  | some i =>
    let p := (cstr tag).drop (i + pat.length)
    match Lib.findSub (lit "\"") p with
    | none   => none
    | some q => some (dsmlUnescapeText (p.take q))

/-! ### JSON literals -/

/-- A lower-case hexadecimal digit. -/
def hexDigit (n : UInt8) : UInt8 := if n < 10 then '0'.toUInt8 + n else 'a'.toUInt8 + (n - 10)

/-- One byte of a JSON string literal. -/
def jsonEscapeByte (c : UInt8) : Bytes :=
  if c = '"'.toUInt8 ∨ c = '\\'.toUInt8 then ['\\'.toUInt8, c]
  else if c = '\n'.toUInt8 then lit "\\n"
  else if c = '\r'.toUInt8 then lit "\\r"
  else if c = '\t'.toUInt8 then lit "\\t"
  else if c < 0x20 then lit "\\u00" ++ [hexDigit (c / 16), hexDigit (c % 16)]
  else [c]

/-- `json_escape_fragment_n` -/
def jsonEscapeFragment (s : Bytes) : Bytes := s.flatMap jsonEscapeByte

/-- `json_escape` -/
def jsonEscape (s : Bytes) : Bytes := lit "\"" ++ jsonEscapeFragment (cstr s) ++ lit "\""

end DS4.Server
