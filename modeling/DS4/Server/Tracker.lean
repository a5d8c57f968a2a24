import DS4.Server.Dsml

namespace DS4.Server

/-!
# Server — where generation is inside a tool call

The sampler asks after every token whether the next byte belongs to DSML syntax or to a payload.

* `dsmlDecodeTrackerUpdate` — the tracker of the decode loop: it is called with longer and longer
  prefixes of the generated text and keeps its position between two calls.
* `dsmlDecodeStateForText` — the reference recognizer of the tests, over a whole text.

The tracker's `for` loop and the loops inside it are one loop here, `trackLoop`, whose body
`trackStep` goes on or returns.  Every `return` of the source sets `decode`, so that what is
assigned to it on the way is never read; the step returns it when it stops.
-/

/-- `dsml_decode_state` -/
inductive DecodeState where
  | outside
  | structural
  | stringBody
  | jsonStructural
  | jsonString
  deriving DecidableEq

/-- `json_in_string` and `json_escaped` -/
structure JsonFlags where
  inString : Bool
  escaped : Bool
  deriving DecidableEq

/-- `dsml_track_mode`, with the fields that are read in that mode: the spelling of the block and
    the position inside a JSON parameter. -/
inductive TrackMode where
  | search
  | structural (syn : DsmlSyntax)
  | stringBody (syn : DsmlSyntax)
  | jsonParam (syn : DsmlSyntax) (flags : JsonFlags)
  | done (syn : DsmlSyntax)
  deriving DecidableEq

/-- The position of a tracker. -/
structure TrackPos where
  mode : TrackMode
  pos : Nat
  deriving DecidableEq

/-- `dsml_decode_tracker` -/
structure DecodeTracker extends TrackPos where
  decode : DecodeState
  deriving DecidableEq

/-- `dsml_decode_tracker_init` -/
def DecodeTracker.init : DecodeTracker where
  mode := .search
  pos := 0
  decode := .outside

/-! ### Helpers -/

/-- `raw_partial_lit_min` -/
def rawPartialLitMin (raw : Bytes) (rawLen pos : Nat) (pat : Bytes) (minLen : Nat) : Bool :=
  rawPartialLit raw rawLen pos pat && decide (minLen ≤ rawLen - pos)

/-- `dsml_max_tool_start_len` -/
def dsmlMaxToolStartLen : Nat :=
  (dsmlSyntaxes.map fun syn => syn.toolCallsStart.length).foldl max 0

/-- One turn of the loop of `dsml_find_tool_start` over the spellings. -/
def betterStart (raw : Bytes) (rawLen start : Nat) (best : Option (DsmlSyntax × Nat))
    (syn : DsmlSyntax) : Option (DsmlSyntax × Nat) :=
  match findLitBounded raw rawLen start syn.toolCallsStart, best with
  | some p, some (bestSyn, b) => if p < b then some (syn, p) else some (bestSyn, b)
  | some p, none => some (syn, p)
  | none, best => best

/-- `dsml_find_tool_start_from`: the spelling and the end of the earliest block start. -/
def dsmlFindToolStartFrom (raw : Bytes) (rawLen start : Nat) : Option (DsmlSyntax × Nat) :=
  (dsmlSyntaxes.foldl (betterStart raw rawLen start) none).map fun b =>
    (b.1, b.2 + b.1.toolCallsStart.length)

/-- `dsml_attr_is_string_true` -/
def dsmlAttrIsStringTrue (raw : Bytes) (tagStart tagEnd : Nat) : Bool :=
  dsmlAttr (slice raw tagStart tagEnd) (lit "string") == some (lit "true")

/-- `memchr(raw + pos, '>', raw_len - pos)` -/
def tagEndFrom (raw : Bytes) (rawLen pos : Nat) : Option Nat :=
  findLitBounded raw rawLen pos (lit ">")

/-- One byte of a JSON parameter. -/
def JsonFlags.next (f : JsonFlags) (c : UInt8) : JsonFlags :=
  if f.inString then
    if f.escaped then { f with escaped := false }
    else if c = '\\'.toUInt8 then { f with escaped := true }
    else if c = '"'.toUInt8 then { f with inString := false }
    else f
  else if c = '"'.toUInt8 then { f with inString := true }
  else f

/-- `json_in_string = false`, `json_escaped = false` -/
def JsonFlags.start : JsonFlags := ⟨false, false⟩

/-! ### The tracker -/

/-- What one pass of the loop does. -/
inductive TrackStep where
  | next (t : TrackPos)
  | stop (t : TrackPos) (decode : DecodeState)

/-- `DSML_TRACK_SEARCH`: without a block start, the tail that may still begin one is searched
    again the next time. -/
def trackSearch (raw : Bytes) (rawLen pos : Nat) : TrackStep :=
  match dsmlFindToolStartFrom raw rawLen pos with
  | none => .stop ⟨.search, rawLen - dsmlMaxToolStartLen⟩ .outside
  | some (syn, p) => .next ⟨.structural syn, p⟩

/-- `DSML_TRACK_STRING_BODY`, one byte. -/
def trackStringBody (raw : Bytes) (rawLen pos : Nat) (syn : DsmlSyntax) : TrackStep :=
  if pos < rawLen then
    if rawFullLit raw rawLen pos syn.paramEnd then
      .next ⟨.structural syn, pos + syn.paramEnd.length⟩
    else if rawPartialLitMin raw rawLen pos syn.paramEnd 2 then
      .stop ⟨.stringBody syn, pos⟩ .structural
    else .next ⟨.stringBody syn, pos + 1⟩
  else .stop ⟨.stringBody syn, pos⟩ .stringBody

/-- `DSML_TRACK_JSON_PARAM`, one byte. -/
def trackJsonParam (raw : Bytes) (rawLen pos : Nat) (syn : DsmlSyntax) (f : JsonFlags) :
    TrackStep :=
  if pos < rawLen then
    if !f.inString && rawFullLit raw rawLen pos syn.paramEnd then
      .next ⟨.structural syn, pos + syn.paramEnd.length⟩
    else if !f.inString && rawPartialLitMin raw rawLen pos syn.paramEnd 2 then
      .stop ⟨.jsonParam syn f, pos⟩ .structural
    else .next ⟨.jsonParam syn (f.next (raw.getD pos 0)), pos + 1⟩
  else
    .stop ⟨.jsonParam syn f, pos⟩ (if f.inString then .jsonString else .jsonStructural)

/-- An invoke tag at `pos`. -/
def trackInvokeTag (raw : Bytes) (rawLen pos : Nat) (syn : DsmlSyntax) : TrackStep :=
  match tagEndFrom raw rawLen pos with
  | none => .stop ⟨.structural syn, pos⟩ .structural
  | some tagEnd => .next ⟨.structural syn, tagEnd + 1⟩

/-- A parameter tag at `pos`. -/
def trackParamTag (raw : Bytes) (rawLen pos : Nat) (syn : DsmlSyntax) : TrackStep :=
  match tagEndFrom raw rawLen pos with
  | none => .stop ⟨.structural syn, pos⟩ .structural
  | some tagEnd =>
    if dsmlAttrIsStringTrue raw pos (tagEnd + 1) then .next ⟨.stringBody syn, tagEnd + 1⟩
    else .next ⟨.jsonParam syn .start, tagEnd + 1⟩

/-- `DSML_TRACK_STRUCTURAL`, one tag, behind the white space. -/
def trackTag (raw : Bytes) (rawLen pos : Nat) (syn : DsmlSyntax) : TrackStep :=
  if rawLen ≤ pos then .stop ⟨.structural syn, pos⟩ .structural
  else if rawFullLit raw rawLen pos syn.toolCallsEnd then
    .stop ⟨.done syn, pos + syn.toolCallsEnd.length⟩ .outside
  else if rawFullLit raw rawLen pos syn.invokeEnd then
    .next ⟨.structural syn, pos + syn.invokeEnd.length⟩
  else if rawFullLit raw rawLen pos syn.invokeStart then trackInvokeTag raw rawLen pos syn
  else if rawFullLit raw rawLen pos syn.paramStart then trackParamTag raw rawLen pos syn
  -- a partial tag and anything else both wait where they are
  else .stop ⟨.structural syn, pos⟩ .structural

/-- One pass of the loop of `dsml_decode_tracker_update`. -/
def trackStep (raw : Bytes) (rawLen : Nat) (t : TrackPos) : TrackStep :=
  match t.mode with
  | .search         => trackSearch raw rawLen t.pos
  | .structural syn => trackTag raw rawLen (skipSpace raw rawLen t.pos) syn
  | .stringBody syn => trackStringBody raw rawLen t.pos syn
  | .jsonParam syn f => trackJsonParam raw rawLen t.pos syn f
  | .done syn       => .stop ⟨.done syn, t.pos⟩ .outside

/-- The loop; every pass that goes on has consumed a byte. -/
def trackLoop (raw : Bytes) (rawLen : Nat) : Nat → TrackPos → DecodeTracker
  | 0, t => ⟨t, .outside⟩
  | fuel + 1, t =>
    match trackStep raw rawLen t with
    | .next t' => trackLoop raw rawLen fuel t'
    | .stop t' decode => ⟨t', decode⟩

/-- `dsml_decode_tracker_update` -/
def dsmlDecodeTrackerUpdate (raw : Bytes) (rawLen : Nat) (dt : DecodeTracker) : DecodeTracker :=
  trackLoop raw rawLen (rawLen + 1) dt.toTrackPos

/-! ### The reference recognizer -/

/-- `raw_suffix_partial_lit` -/
def rawSuffixPartialLit (raw pat : Bytes) (minLen : Nat) : Bool :=
  let max := if raw.length < pat.length then raw.length else pat.length - 1
  (List.range (max + 1)).any fun n =>
    decide (minLen ≤ n) && (raw.drop (raw.length - n) == pat.take n)

/-- `dsml_decode_scan_json_param`, over what is left of the text. -/
def dsmlDecodeScanJsonParam (raw : Bytes) (syn : DsmlSyntax) : JsonFlags → Bytes → DecodeState
  | f, [] =>
    if !f.inString && rawSuffixPartialLit raw syn.paramEnd 2 then .structural
    else if f.inString then .jsonString
    else .jsonStructural
  | f, c :: rest =>
    if !f.inString && syn.paramEnd.isPrefixOf (c :: rest) then .structural
    else dsmlDecodeScanJsonParam raw syn (f.next c) rest

/-- What one pass of the reference loop does. -/
inductive ScanStep where
  | next (pos : Nat)
  | stop (decode : DecodeState)

/-- A parameter whose value starts at `pos`. -/
def scanParamValue (raw : Bytes) (syn : DsmlSyntax) (pos : Nat) (stringValue : Bool) : ScanStep :=
  if stringValue then
    match findLitBounded raw raw.length pos syn.paramEnd with
    | none =>
      if rawSuffixPartialLit raw syn.paramEnd 2 then .stop .structural else .stop .stringBody
    | some e => .next (e + syn.paramEnd.length)
  else
    let jsonState := dsmlDecodeScanJsonParam raw syn .start (raw.drop pos)
    if jsonState = .structural then
      match findLitBounded raw raw.length pos syn.paramEnd with
      | none => .stop .structural
      | some e => .next (e + syn.paramEnd.length)
    else .stop jsonState

/-- An invoke tag at `pos`. -/
def scanInvokeTag (raw : Bytes) (pos : Nat) : ScanStep :=
  match tagEndFrom raw raw.length pos with
  | none => .stop .structural
  | some tagEnd => .next (tagEnd + 1)

/-- A parameter tag at `pos`. -/
def scanParamTag (raw : Bytes) (syn : DsmlSyntax) (pos : Nat) : ScanStep :=
  match tagEndFrom raw raw.length pos with
  | none => .stop .structural
  | some tagEnd =>
    scanParamValue raw syn (tagEnd + 1) (dsmlAttrIsStringTrue raw pos (tagEnd + 1))

/-- One tag, behind the white space. -/
def scanTag (raw : Bytes) (syn : DsmlSyntax) (pos : Nat) : ScanStep :=
  if raw.length ≤ pos then .stop .structural
  else if rawFullLit raw raw.length pos syn.toolCallsEnd then .stop .outside
  else if rawFullLit raw raw.length pos syn.invokeEnd then .next (pos + syn.invokeEnd.length)
  else if rawFullLit raw raw.length pos syn.invokeStart then scanInvokeTag raw pos
  else if rawFullLit raw raw.length pos syn.paramStart then scanParamTag raw syn pos
  else .stop .structural

/-- The loop of the reference recognizer; every pass that goes on has consumed a byte. -/
def scanLoop (raw : Bytes) (syn : DsmlSyntax) : Nat → Nat → DecodeState
  | 0, _ => .structural
  | fuel + 1, pos =>
    match scanTag raw syn (skipSpace raw raw.length pos) with
    | .next pos' => scanLoop raw syn fuel pos'
    | .stop decode => decode

/-- `dsml_decode_state_for_text` -/
def dsmlDecodeStateForText (raw : Bytes) : DecodeState :=
  match dsmlFindToolStartFrom raw raw.length 0 with
  | none => .outside
  | some (syn, pos) => scanLoop raw syn (raw.length + 1) pos

end DS4.Server
