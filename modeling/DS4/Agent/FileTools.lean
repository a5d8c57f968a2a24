import DS4.Agent.ToolOutput

namespace DS4.Agent

/-!
# Agent — reading, searching, writing and editing files

The tools that work on files, with the files as they are at the call.  Others may change any file between
two calls.

* `Io` — the files, and what opening, writing and matching do.
* `agentReadRange`, `agentToolWrite`, `agentToolSearch` — reading, writing and searching.
* `agentToolEditOldNew`, `agentToolEditLineRange`, `agentToolEditLineAll` — the edits.
* `agentExecuteToolCall` — a call by its name.
-/

open DS4.Tokenizer DS4.Lib

/-! ### Arguments -/

/-- `agent_tool_call`, its arguments with their names. -/
structure ToolCall where
  name : Option Bytes
  args : List (Bytes × Bytes)
deriving DecidableEq, Repr

/-- `agent_tool_arg_value` -/
def argValue (call : ToolCall) (name : String) : Option Bytes :=
  (call.args.find? fun a => cstr a.1 = lit name).map fun a => cstr a.2

def INT_MAX : Int := 0x7fffffff

/-- `isspace` -/
def isSpace (c : UInt8) : Bool := c == 0x20 || decide (0x09 ≤ c ∧ c ≤ 0x0d)

/-- `isdigit` -/
def isDigit (c : UInt8) : Bool := decide (0x30 ≤ c ∧ c ≤ 0x39)

/-- `tolower` -/
def toLower (c : UInt8) : UInt8 := if 0x41 ≤ c ∧ c ≤ 0x5a then c + 0x20 else c

/-- The value of digits. -/
def digitsValue (s : Bytes) : Nat := s.foldl (fun v c => 10 * v + (c.toNat - 0x30)) 0

/-- `strtol` in base 10: the value, which stays in the range of a long, and the text behind it. -/
def strtol (s : Bytes) : Option (Int × Bytes) :=
  let t := s.dropWhile isSpace
  let neg := decide (t.head? = some 0x2d)
  let t := if t.head? = some 0x2d ∨ t.head? = some 0x2b then t.tail else t
  let digits := t.takeWhile isDigit
  if digits = [] then none
  else
    let v : Int := if neg then -digitsValue digits else digitsValue digits
    some (max (-0x8000000000000000) (min v 0x7fffffffffffffff), t.drop digits.length)

/-- A blank of an argument. -/
def isBlank (c : UInt8) : Bool := c == 0x20 || c == 0x09 || c == 0x0d || c == 0x0a

/-- `agent_parse_int_default` -/
def agentParseIntDefault (s : Option Bytes) (dflt lo hi : Int) : Int :=
  match s with
  | none   => dflt
  | some s =>
    if s = [] then dflt
    else
      match strtol s with
      | none           => dflt
      | some (v, rest) => if rest.dropWhile isBlank = [] then min hi (max lo v) else dflt

/-- `agent_parse_bool_default` -/
def agentParseBoolDefault (s : Option Bytes) (dflt : Bool) : Bool :=
  match s with
  | none   => dflt
  | some s =>
    if s = [] then dflt
    else if s.map toLower = lit "true" ∨ s.map toLower = lit "yes" ∨ s = lit "1" then true
    else if s.map toLower = lit "false" ∨ s.map toLower = lit "no" ∨ s = lit "0" then false
    else dflt

/-- `agent_parse_line_range_arg` -/
def agentParseLineRangeArg (s : Option Bytes) : Option (Nat × Nat) :=
  match s.bind strtol with
  | none           => none
  | some (a, rest) =>
    if a ≤ 0 ∨ INT_MAX < a then none
    else
      let rest := rest.dropWhile fun c => c == 0x20 || c == 0x09
      if rest.head? ≠ some 0x3a ∧ rest.head? ≠ some 0x2d then none
      else
        match strtol (rest.tail.dropWhile fun c => c == 0x20 || c == 0x09) with
        | none           => none
        | some (b, rest) =>
          if b ≤ 0 ∨ INT_MAX < b ∨ rest.dropWhile isBlank ≠ [] ∨ b < a then none
          else some (a.toNat, b.toNat)

/-! ### Files -/

/-- What opening and reading a path gives: the bytes, or the error of opening or of reading. -/
inductive File where
  | data (bytes : Bytes)
  | noOpen (err : Bytes)
  | noRead (err : Bytes)
deriving DecidableEq, Repr

/-- The files, by path. -/
abbrev Files := Bytes → File

/-- How a write ends: it succeeds, the file cannot be opened, or writing or closing fails when some bytes of
    the new content have reached the file. -/
inductive WriteResult where
  | ok
  | noOpen (err : Bytes)
  | noWrite (err : Bytes) (written : Nat)
  | noClose (err : Bytes) (written : Nat)
deriving DecidableEq, Repr

/-- What a path names, for a search. -/
inductive Node where
  | file
  | dir (entries : List Bytes)
  | other

/-- The world at a call. -/
structure Io where
  files   : Files
  write   : Bytes → WriteResult
  node    : Bytes → Node
  fnmatch : Bytes → Bytes → Bool
  regcomp : Bytes → Bool → Except Bytes (Bytes → Bool)
  other   : Bytes

def AGENT_FILE_MAX_BYTES : Nat := 16 * 1024 * 1024

/-- `agent_read_file_bytes` -/
def agentReadFileBytes (files : Files) (path : Bytes) : Except Bytes Bytes :=
  match files path with
  | .noOpen e => .error (snprintf 256 (lit "open " ++ path ++ lit ": " ++ e))
  | .noRead e => .error (snprintf 256 (lit "read " ++ path ++ lit ": " ++ e))
  | .data d   =>
    if AGENT_FILE_MAX_BYTES < d.length then
      .error (snprintf 256 (lit "file too large: " ++ path ++ lit " exceeds " ++
        natText AGENT_FILE_MAX_BYTES ++ lit " bytes"))
    else .ok d

/-- What a write leaves in the files. -/
def written (io : Io) (path data : Bytes) : Files :=
  match io.write path with
  | .ok          => Function.update io.files path (.data data)
  | .noOpen _    => io.files
  | .noWrite _ n => Function.update io.files path (.data (data.take n))
  | .noClose _ n => Function.update io.files path (.data (data.take n))

/-- `agent_write_file_bytes`: its error; `written` is what it leaves. -/
def agentWriteFileBytes (io : Io) (path : Bytes) : Option Bytes :=
  match io.write path with
  | .ok          => none
  | .noOpen e    => some (snprintf 256 (lit "open " ++ path ++ lit ": " ++ e))
  | .noWrite e _ => some (snprintf 256 (lit "write " ++ path ++ lit ": " ++ e))
  | .noClose e _ => some (snprintf 256 (lit "close " ++ path ++ lit ": " ++ e))

/-! ### State and results -/

/-- Where the `more` tool goes on. -/
structure More where
  path     : Bytes := []
  nextLine : Int := 0
  bare     : Bool := false
  valid    : Bool := false
deriving DecidableEq, Repr

/-- What the file tools keep from call to call. -/
structure ToolState where
  views : Views := fun _ => none
  more  : More := {}

/-- A call: its result, the lines that the model supplied by it, the state and the files behind it. -/
structure CallOut where
  out      : Out
  supplied : List Seen := []
  state    : ToolState
  files    : Files

/-- A call that only says something. -/
def answer (io : Io) (st : ToolState) (out : Out) : CallOut := { out, state := st, files := io.files }

/-- `agent_worker_set_more` -/
def agentWorkerSetMore (path : Bytes) (nextLine : Int) (bare : Bool) : More :=
  { path := snprintf PATH_MAX path, nextLine, bare, valid := decide (path ≠ [] ∧ 0 < nextLine) }

/-! ### Reading -/

def AGENT_READ_DEFAULT_LINES : Int := 500

/-- A sum of ints. -/
def wrapInt (x : Int) : Int := Int.bmod x 0x100000000

/-- The content of a line. -/
def lineContent (data : Bytes) (n : Nat) : Bytes := (lineAt data n).getD []

/-- The lines `a ≤ n ≤ b`, as `agent_edit_result_append_line` prints them. -/
def appendLines (o : Out) (path data : Bytes) (a b : Nat) : Out :=
  (List.range' a (b + 1 - a)).foldl (fun o n => o.line [] path n (lineContent data n)) o

/-- What `agent_read_range` prints for a raw read. -/
def bareOut (data : Bytes) (startIdx : Nat) (endIdx maxLines : Int) : Out :=
  let spans := agentSplitLines data
  let start := (spans[startIdx]?).elim data.length LineSpan.start
  let stop := if startIdx < endIdx then (spans[endIdx.toNat - 1]?).elim start LineSpan.stop else start
  let out := ({} : Out).append ((data.drop start).take (stop - start))
  let out := if start < stop ∧ out.buf.bytes.getLast? ≠ some 0x0a then out.puts (lit "\n") else out
  if endIdx < spans.length then
    out.puts (snprintf 160 (lit "[Read truncated at line " ++ intText endIdx ++ lit " of " ++
      natText spans.length ++ lit ". continue_offset=" ++ intText (endIdx + 1) ++
      lit ". Call the more tool with count=" ++
      intText (if 0 < maxLines then maxLines else AGENT_READ_DEFAULT_LINES) ++
      lit " to read the next chunk.]\n"))
  else out

/-- The header that `agent_read_range` prints before numbered lines. -/
def readHeader (path : Bytes) (total startIdx : Nat) (endIdx maxLines : Int) : Bytes :=
  let head := path ++ lit ": lines " ++ natText (if total = 0 then 0 else startIdx + 1) ++ lit "-" ++
    intText endIdx ++ lit " of " ++ natText total
  snprintf (PATH_MAX + 160) (
    if endIdx < total then
      head ++ lit "; continue_offset=" ++ intText (endIdx + 1) ++ lit "; call the more tool with count=" ++
        intText (if 0 < maxLines then maxLines else AGENT_READ_DEFAULT_LINES) ++
        lit " to read the next chunk\n"
    else head ++ lit "\n")

/-- `agent_read_range` -/
def agentReadRange (io : Io) (st : ToolState) (path : Bytes) (startLine maxLines : Int)
    (wholeFile bare setMore : Bool) : CallOut :=
  if path = [] then answer io st (say (lit "Tool error: read requires path\n"))
  else
    match agentReadFileBytes io.files path with
    | .error err => answer io st (toolError err)
    | .ok data   =>
      let total := (agentSplitLines data).length
      let startIdx := min (startLine.toNat - 1) total
      let maxLines : Int :=
        if wholeFile then total - startIdx
        else if maxLines ≤ 0 then AGENT_READ_DEFAULT_LINES else maxLines
      let endIdx := min (wrapInt (startIdx + maxLines)) total
      let more :=
        if setMore then
          if endIdx < total then agentWorkerSetMore path (endIdx + 1) bare
          else agentWorkerSetMore [] 0 false
        else st.more
      if bare then answer io { st with more } (bareOut data startIdx endIdx maxLines)
      else
        let out := ({} : Out).puts (readHeader path total startIdx endIdx maxLines)
        let out := appendLines out path data (startIdx + 1) endIdx.toNat
        let views :=
          if startIdx = 0 ∧ endIdx = total then rememberWholeFile st.views path data
          else rememberRange st.views path data startIdx endIdx.toNat
        answer io { views, more } out

/-- `agent_tool_read` -/
def agentToolRead (io : Io) (st : ToolState) (call : ToolCall) : CallOut :=
  agentReadRange io st ((argValue call "path").getD [])
    (agentParseIntDefault (argValue call "start_line") 1 1 INT_MAX)
    (agentParseIntDefault (argValue call "max_lines") AGENT_READ_DEFAULT_LINES 1 INT_MAX)
    (agentParseBoolDefault (argValue call "whole") false)
    (agentParseBoolDefault (argValue call "raw") false) true

/-- `agent_tool_more` -/
def agentToolMore (io : Io) (st : ToolState) (call : ToolCall) : CallOut :=
  let count := agentParseIntDefault (argValue call "count") AGENT_READ_DEFAULT_LINES 1 INT_MAX
  if st.more.valid then agentReadRange io st st.more.path st.more.nextLine count false st.more.bare true
  else answer io st (say (lit "Tool error: no previous output to continue\n"))

/-! ### Writing -/

/-- The lines of a text that lie between two of its bytes: those that the model supplied, when it supplied
    these bytes. -/
def suppliedLines (path data : Bytes) (lo hi : Nat) : List Seen :=
  (List.range' 1 (agentSplitLines data).length).filterMap fun n =>
    ((agentSplitLines data)[n - 1]?).bind fun sp =>
      if lo ≤ sp.start ∧ sp.stop ≤ hi then some ⟨path, n, sp.content data⟩ else none

/-- `agent_tool_write` -/
def agentToolWrite (io : Io) (st : ToolState) (call : ToolCall) : CallOut :=
  match argValue call "path", argValue call "content" with
  | none, _         => answer io st (say (lit "Tool error: write requires path\n"))
  | some [], _      => answer io st (say (lit "Tool error: write requires path\n"))
  | some _, none    => answer io st (say (lit "Tool error: write requires content\n"))
  | some path, some content =>
    let files := written io path content
    match io.write path with
    | .noOpen e    => { answer io st (((say (lit "Tool error: open for write failed: ")).puts e).puts (lit "\n"))
                        with files }
    | .noWrite e _ => { answer io st (((say (lit "Tool error: write failed: ")).puts e).puts (lit "\n"))
                        with files }
    | .noClose e _ => { answer io st (((say (lit "Tool error: write failed: ")).puts e).puts (lit "\n"))
                        with files }
    | .ok          =>
      { out      := say (snprintf (PATH_MAX + 160) (lit "Wrote " ++ natText content.length ++
                      lit " bytes to " ++ path ++ lit "\n"))
        supplied := suppliedLines path content 0 content.length
        state    := { st with views := rememberWholeFile st.views path content }
        files }

/-! ### Editing -/

/-- `agent_count_text_lines` -/
def agentCountTextLines (text : Bytes) : Nat := countLines text

/-- `agent_edit_replacement_line_count` -/
def agentEditReplacementLineCount (text : Bytes) (addNewline : Bool) : Nat :=
  if agentCountTextLines text ≠ 0 then agentCountTextLines text else if addNewline then 1 else 0

def CONTEXT_BEFORE : Nat := 5
def CONTEXT_AFTER : Nat := 8
def EDITED_CONTEXT_HEAD : Nat := 18
def EDITED_CONTEXT_TAIL : Nat := 18

/-- The first and the last line of `agent_edit_result_append_context`: the edited lines of a file, and those
    around them. -/
structure Context where
  anchorStart : Nat
  anchorEnd   : Nat
  start       : Nat
  stop        : Nat

/-- The lines around an edit, in a file with this many lines. -/
def contextOf (total anchorStart anchorEnd : Nat) : Context :=
  let anchorStart := min (max anchorStart 1) total
  let anchorEnd := min (max anchorEnd anchorStart) total
  { anchorStart, anchorEnd
    start := max (anchorStart - CONTEXT_BEFORE) 1
    stop  := min (anchorEnd + CONTEXT_AFTER) total }

/-- What `agent_edit_result_append_context` prints. -/
def contextOut (o : Out) (path data : Bytes) (total : Nat) (c : Context) : Out :=
  let o := o.puts (snprintf (PATH_MAX + 160) (lit "Current file around edit: " ++ path ++ lit " lines " ++
    natText c.start ++ lit "-" ++ natText c.stop ++ lit " of " ++ natText total ++ lit "\n"))
  if c.anchorEnd - c.anchorStart + 1 ≤ EDITED_CONTEXT_HEAD + EDITED_CONTEXT_TAIL then
    appendLines o path data c.start c.stop
  else
    let headEnd := c.anchorStart + EDITED_CONTEXT_HEAD - 1
    let tailStart := c.anchorEnd - EDITED_CONTEXT_TAIL + 1
    let o := appendLines o path data c.start headEnd
    let o := o.puts (snprintf (PATH_MAX + 160) (lit "... " ++ natText (tailStart - headEnd - 1) ++
      lit " edited lines omitted ...\n"))
    appendLines o path data tailStart c.stop

/-- `agent_edit_result_append_context`; the lines that it omits are remembered as well. -/
def agentEditResultAppendContext (views : Views) (o : Out) (path data : Bytes)
    (anchorStart anchorEnd : Nat) : Out × Views :=
  let total := (agentSplitLines data).length
  if total = 0 then (o, views)
  else
    let c := contextOf total anchorStart anchorEnd
    (contextOut o path data total c, rememberRange views path data (c.start - 1) c.stop)

/-- By how much a line edit says that it moves the lines behind its range. -/
def lineDelta (startLine endLine replacementLines : Nat) : Int :=
  replacementLines - (endLine - startLine + 1)

/-- The message of an edit that moves lines. -/
def lineShift (endLine : Nat) (delta : Int) : Bytes :=
  snprintf (PATH_MAX + 160) (lit "Line shift: old lines after " ++ natText endLine ++ lit " moved by " ++
    signedText delta ++ lit " (old line " ++ natText (endLine + 1) ++ lit " is now line " ++
    intText (endLine + 1 + delta) ++ lit "). Lines shown below are safe for immediate line/range " ++
    lit "editing; read again before editing other shifted lines.\n")

/-- `agent_edit_line_result` -/
def agentEditLineResult (views : Views) (path : Bytes) (startLine endLine replacementLines : Nat)
    (newData : Bytes) : Out × Views :=
  let b := say (snprintf (PATH_MAX + 160) (lit "Edited " ++ path ++ lit " lines " ++ natText startLine ++
    lit "-" ++ natText endLine ++ lit "\n"))
  let delta := lineDelta startLine endLine replacementLines
  let b := if delta ≠ 0 then b.puts (lineShift endLine delta) else b
  let newAnchorEnd := if 0 < replacementLines then startLine + replacementLines - 1 else startLine
  agentEditResultAppendContext views b path newData startLine newAnchorEnd

/-- `agent_memmem_simple`: the place of the needle. -/
def agentMemmemSimple (hay needle : Bytes) : Option Nat :=
  if needle = [] then some 0
  else (List.range (hay.length + 1 - needle.length)).find? fun i => needle.isPrefixOf (hay.drop i)

/-- The lines that an old/new edit touches and by how much it moves the others;
    `agent_old_new_line_effect` leaves them 0 for an empty file. -/
def agentOldNewLineEffect (oldData newData : Bytes) (editOffset replacedLen : Nat) : Nat × Nat × Int :=
  let oldSpans := agentSplitLines oldData
  if oldSpans = [] then (0, 0, 0)
  else
    (agentLineForOffset oldSpans editOffset,
      agentLineForOffset oldSpans (oldLast oldData editOffset replacedLen),
      ((agentSplitLines newData).length : Int) - oldSpans.length)

/-- `agent_edit_old_new_result` -/
def agentEditOldNewResult (views : Views) (path : Bytes) (startLine endLine : Nat) (delta : Int)
    (newData : Bytes) : Out × Views :=
  let b := say (snprintf (PATH_MAX + 180) (lit "Edited " ++ path ++ lit " using old/new replacement\n"))
  if 0 < startLine ∧ startLine ≤ endLine then
    let b := b.puts (snprintf (PATH_MAX + 180) (lit "Touched old lines " ++ natText startLine ++ lit "-" ++
      natText endLine ++ lit "; current post-edit context follows.\n"))
    let b := if delta ≠ 0 then b.puts (lineShift endLine delta) else b
    agentEditResultAppendContext views b path newData startLine (max (endLine + delta) startLine).toNat
  else (b, views)

/-- The bytes of a text with some of them replaced. -/
def spliced (data : Bytes) (off len : Nat) (text : Bytes) : Bytes :=
  data.take off ++ text ++ data.drop (off + len)

/-- `agent_tool_edit_old_new` -/
def agentToolEditOldNew (io : Io) (st : ToolState) (path : Bytes) (old newText : Option Bytes) : CallOut :=
  let old := old.getD []
  if old = [] then answer io st (say (lit "Tool error: edit old/new requires non-empty old text\n"))
  else
    let newText := newText.getD []
    match agentReadFileBytes io.files path with
    | .error err => answer io st (toolError err)
    | .ok data   =>
      match agentMemmemSimple data old with
      | none       => answer io st (say (lit "Tool error: old text not found\n"))
      | some first =>
        -- the second search begins behind the first occurrence
        if (agentMemmemSimple (data.drop (first + old.length)) old).isSome then
          answer io st (say (lit ("Tool error: old text is not unique; " ++
            "read the target lines and retry with line/range plus new\n")))
        else
          let out := spliced data first old.length newText
          let files := written io path out
          match agentWriteFileBytes io path with
          | some err => { answer io st (toolError err) with files }
          | none     =>
            let (startLine, endLine, delta) := agentOldNewLineEffect data out first old.length
            let views := updateViewAfterOldNew st.views path data out first old.length
            let (b, views) := agentEditOldNewResult views path startLine endLine delta out
            { out      := b
              supplied := suppliedLines path out first (first + newText.length)
              state    := { st with views }
              files }

/-- The lines of a range, in bytes: where the first starts, where the last ends, and whether that one has a
    terminator. -/
def rangeBytes (data : Bytes) (startLine endLine : Nat) : Option (Nat × Nat × Bool) :=
  ((agentSplitLines data)[startLine - 1]?).bind fun s =>
    ((agentSplitLines data)[endLine - 1]?).map fun e => (s.start, e.stop, decide (e.contentEnd < e.stop))

/-- A line edit adds a newline when the range's last line has a terminator and the new text ends without
    one. -/
def addsNewline (newText : Bytes) (hadNewline : Bool) : Bool :=
  decide (hadNewline ∧ newText ≠ [] ∧ newText.getLast? ≠ some 0x0a)

/-- The text that a line edit puts in. -/
def insertedText (newText : Bytes) (hadNewline : Bool) : Bytes :=
  if addsNewline newText hadNewline then newText ++ [0x0a] else newText

/-- `agent_worker_verify_seen_range`: its error. -/
def verifySeenRange (views : Views) (path data : Bytes) (startLine endLine : Nat) : Option Bytes :=
  match views path with
  | none   =>
    some (snprintf 256 (lit "line edit requires a recent read/search of " ++ path ++
      lit "; read the range before editing"))
  | some _ =>
    (List.range' startLine (endLine + 1 - startLine)).findSome? fun line =>
      match known views path line with
      | none     =>
        some (snprintf 256 (lit "line " ++ natText line ++ lit " of " ++ path ++
          lit " was not shown recently or moved after an edit; read this range again before editing"))
      | some crc =>
        if agentLineCrc (lineContent data line) = crc then none
        else some (snprintf 256 (lit "file changed around line " ++ natText line ++ lit " of " ++ path ++
          lit "; read this range again before editing"))

/-- `agent_tool_edit_line_range` -/
def agentToolEditLineRange (io : Io) (st : ToolState) (path : Bytes) (startLine endLine : Nat)
    (newText : Option Bytes) : CallOut :=
  let newText := newText.getD []
  if startLine = 0 ∨ endLine = 0 ∨ endLine < startLine then
    answer io st (say (lit "Tool error: invalid edit line range\n"))
  else
    match agentReadFileBytes io.files path with
    | .error err => answer io st (toolError err)
    | .ok data   =>
      match rangeBytes data startLine endLine with
      | none                        =>
        answer io st (say (lit "Tool error: edit line range is outside the file\n"))
      | some (lo, hi, hadNewline) =>
        match verifySeenRange st.views path data startLine endLine with
        | some err => answer io st (toolError err)
        | none     =>
          let text := insertedText newText hadNewline
          let out := spliced data lo (hi - lo) text
          let files := written io path out
          match agentWriteFileBytes io path with
          | some err => { answer io st (toolError err) with files }
          | none     =>
            let replacementLines :=
              agentEditReplacementLineCount newText (addsNewline newText hadNewline)
            let views := updateViewAfterEdit st.views path out startLine endLine replacementLines
            let (b, views) := agentEditLineResult views path startLine endLine replacementLines out
            { out      := b
              supplied := suppliedLines path out lo (lo + text.length)
              state    := { st with views }
              files }

/-- `agent_tool_edit_line_all` -/
def agentToolEditLineAll (io : Io) (st : ToolState) (path : Bytes) (newText : Option Bytes) : CallOut :=
  let newText := newText.getD []
  let files := written io path newText
  match agentWriteFileBytes io path with
  | some err => { answer io st (toolError err) with files }
  | none     =>
    let total := (agentSplitLines newText).length
    let views := rememberWholeFile st.views path newText
    let b := say (snprintf (PATH_MAX + 80) (lit "Edited " ++ path ++ lit " range=all\n"))
    let (b, views) := agentEditResultAppendContext views b path newText 1 (if 0 < total then total else 1)
    { out      := b
      supplied := suppliedLines path newText 0 newText.length
      state    := { st with views }
      files }

/-- How `agent_tool_edit` reads its arguments. -/
inductive EditMode where
  | noPath
  | badRange
  | oldNew (path : Bytes)
  | noText
  | all (path : Bytes)
  | lines (path : Bytes) (startLine endLine : Nat)
  | none
deriving DecidableEq, Repr

/-- The mode of an edit. -/
def editMode (call : ToolCall) : EditMode :=
  match argValue call "path" with
  | none | some [] => .noPath
  | some path      =>
    let line := agentParseIntDefault (argValue call "line") 0 0 INT_MAX
    let range := argValue call "range"
    let rangeAll := decide (range = some (lit "all"))
    let parsed := if rangeAll then none else agentParseLineRangeArg range
    if range.isSome ∧ !rangeAll ∧ parsed = none then .badRange
    else
      let start : Int :=
        match parsed with
        | some (a, _) => a
        | none        =>
          if line ≠ 0 then line else agentParseIntDefault (argValue call "start_line") 0 0 INT_MAX
      let stop : Int :=
        match parsed with
        | some (_, b) => b
        | none        =>
          if line ≠ 0 then line else agentParseIntDefault (argValue call "end_line") start 0 INT_MAX
      if (argValue call "old").isSome then .oldNew path
      else if (rangeAll ∨ (start ≠ 0 ∧ stop ≠ 0)) ∧ argValue call "new" = none then .noText
      else if rangeAll then .all path
      else if start ≠ 0 ∧ stop ≠ 0 then .lines path start.toNat stop.toNat
      else .none

/-- An edit has a path. -/
theorem editMode_path {call : ToolCall} :
    match editMode call with
    | .oldNew path | .all path | .lines path _ _ => path ≠ []
    | _ => True := by
  unfold editMode
  cases hpath : argValue call "path" with
  | none => trivial
  | some path =>
    cases path with
    | nil => trivial
    | cons c path =>
      dsimp only
      generalize (match (if decide (argValue call "range" = some (lit "all")) = true then none
        else agentParseLineRangeArg (argValue call "range")) with
        | some (a, _) => (a : Int)
        | none => if agentParseIntDefault (argValue call "line") 0 0 INT_MAX ≠ 0 then
            agentParseIntDefault (argValue call "line") 0 0 INT_MAX
          else agentParseIntDefault (argValue call "start_line") 0 0 INT_MAX) = start
      generalize (match (if decide (argValue call "range" = some (lit "all")) = true then none
        else agentParseLineRangeArg (argValue call "range")) with
        | some (_, b) => (b : Int)
        | none => if agentParseIntDefault (argValue call "line") 0 0 INT_MAX ≠ 0 then
            agentParseIntDefault (argValue call "line") 0 0 INT_MAX
          else agentParseIntDefault (argValue call "end_line") start 0 INT_MAX) = stop
      split_ifs <;> simp

/-- `agent_tool_edit` -/
def agentToolEdit (io : Io) (st : ToolState) (call : ToolCall) : CallOut :=
  match editMode call with
  | .noPath       => answer io st (say (lit "Tool error: edit requires path\n"))
  | .badRange     =>
    answer io st (say (lit "Tool error: invalid range; use START:END, for example 10:20\n"))
  | .oldNew path  => agentToolEditOldNew io st path (argValue call "old") (argValue call "new")
  | .noText       =>
    answer io st (say (lit ("Tool error: line/range edit requires explicit new text; " ++
      "use new=\"\" only when deleting\n")))
  | .all path     => agentToolEditLineAll io st path (argValue call "new")
  | .lines path a b => agentToolEditLineRange io st path a b (argValue call "new")
  | .none         =>
    answer io st (say (lit
      "Tool error: edit requires old/new, line+new, range+new, or range=\"all\"+new\n"))

/-! ### Searching -/

/-- What a search looks for. -/
structure SearchCtx where
  query         : Bytes
  glob          : Option Bytes
  regex         : Option (Bytes → Bool)
  caseSensitive : Bool
  context       : Nat
  maxResults    : Nat

/-- What a search has found so far. -/
structure SearchSt where
  results : Nat := 0
  out     : Out := {}
  views   : Views

/-- `agent_literal_match` -/
def agentLiteralMatch (s q : Bytes) (caseSensitive : Bool) : Bool :=
  let fold (t : Bytes) := if caseSensitive then t else t.map toLower
  s.tails.any fun t => (fold q).isPrefixOf (fold t)

/-- `agent_search_line_matches` -/
def agentSearchLineMatches (ctx : SearchCtx) (s : Bytes) : Bool :=
  match ctx.regex with
  | some f => f (cstr s)
  | none   => agentLiteralMatch s ctx.query ctx.caseSensitive

/-- The lines `a ≤ n ≤ b` of a search result, which are remembered one by one. -/
def searchLines (st : SearchSt) (path data : Bytes) (a b : Nat) : SearchSt :=
  (List.range' a (b + 1 - a)).foldl (fun st n =>
    { st with
      out   := st.out.line (lit "  ") path n (lineContent data n)
      views := rememberLine st.views path n (lineContent data n) }) st

/-- The loop of `agent_search_file` over the lines from `n` on: the last line printed, which is 0 at
    first. -/
def searchLoop (ctx : SearchCtx) (path data : Bytes) : List Nat → Nat → SearchSt → Nat × SearchSt
  | [], last, st      => (last, st)
  | n :: ns, last, st =>
    if ctx.maxResults ≤ st.results then (last, st)
    else if agentSearchLineMatches ctx (lineContent data n) then
      let st := if last = 0 then { st with out := (st.out.puts path).puts (lit "\n") } else st
      let a := max (max (n - ctx.context) 1) (last + 1)
      let b := min (n + ctx.context) (agentSplitLines data).length
      let st := searchLines st path data a b
      searchLoop ctx path data ns (max last b) { st with results := st.results + 1 }
    else searchLoop ctx path data ns last st

/-- The part of a path behind its last slash. -/
def baseName (path : Bytes) : Bytes := (path.reverse.takeWhile (· ≠ 0x2f)).reverse

/-- The glob of a search takes the path. -/
def globMatches (io : Io) (ctx : SearchCtx) (path : Bytes) : Bool :=
  match ctx.glob with
  | none      => true
  | some glob => decide (glob = []) || io.fnmatch glob (baseName path) || io.fnmatch glob path

/-- `agent_search_file` -/
def agentSearchFile (io : Io) (ctx : SearchCtx) (path : Bytes) (st : SearchSt) : SearchSt :=
  if ctx.maxResults ≤ st.results then st
  else if globMatches io ctx path then
    match agentReadFileBytes io.files path with
    | .error _ => st
    | .ok data =>
      if 0 ∈ data then st
      else
        let (last, st) := searchLoop ctx path data (List.range' 1 (agentSplitLines data).length) 0 st
        if last = 0 then st else { st with out := st.out.puts (lit "\n") }
  else st

/-- `agent_search_path`, which goes 24 directories deep. -/
def agentSearchPath (io : Io) (ctx : SearchCtx) : Nat → Bytes → SearchSt → SearchSt
  | 0, _, st            => st
  | depth + 1, path, st =>
    if ctx.maxResults ≤ st.results then st
    else
      match io.node path with
      | .file        => agentSearchFile io ctx path st
      | .other       => st
      | .dir entries =>
        entries.foldl (fun st e =>
          if ctx.maxResults ≤ st.results ∨ e = lit "." ∨ e = lit ".." ∨ e = lit ".git" then st
          else agentSearchPath io ctx depth (snprintf PATH_MAX (path ++ lit "/" ++ cstr e)) st) st

/-- The first line of a search result, put in front of the others. -/
def withHeader (hdr : Bytes) (o : Out) : Out where
  buf   := { o.buf with ptr := some (hdr ++ o.buf.bytes) }
  marks := o.marks.map (Mark.shift hdr.length)

/-- The result of a search. -/
def searchOut (st : SearchSt) : Out :=
  if st.out.buf.ptr = none then st.out.puts (lit "No matches\n")
  else withHeader (snprintf 96 (natText st.results ++ lit " match" ++
    (if st.results = 1 then [] else lit "es") ++ lit " shown\n\n")) st.out

/-- `agent_tool_search` -/
def agentToolSearch (io : Io) (st : ToolState) (call : ToolCall) : CallOut :=
  match argValue call "query" with
  | none | some [] => answer io st (say (lit "Tool error: search requires query\n"))
  | some query     =>
    let path :=
      match argValue call "path" with
      | none | some [] => lit "."
      | some path      => path
    let caseSensitive := agentParseBoolDefault (argValue call "case_sensitive") true
    let ctx (regex : Option (Bytes → Bool)) : SearchCtx :=
      { query, regex, caseSensitive
        glob       := argValue call "glob"
        context    := (agentParseIntDefault (argValue call "context") 0 0 5).toNat
        maxResults := (agentParseIntDefault (argValue call "max_results") 50 1 500).toNat }
    let run (regex : Option (Bytes → Bool)) : CallOut :=
      let found := agentSearchPath io (ctx regex) 25 path { views := st.views }
      answer io { st with views := found.views } (searchOut found)
    if argValue call "mode" = some (lit "regex") then
      match io.regcomp query caseSensitive with
      | .error msg =>
        answer io st (((say (lit "Tool error: invalid regex: ")).puts (snprintf 256 msg)).puts (lit "\n"))
      | .ok f      => run (some f)
    else run none

/-- A search has a path. -/
theorem searchPath_ne_nil (arg : Option Bytes) :
    (match arg with
      | none | some [] => lit "."
      | some path      => path) ≠ [] := by
  split
  · decide
  · decide
  · rename_i path hne
    exact fun h => hne h

/-! ### Calls -/

/-- `agent_execute_tool_call`; the tools that do not work on files say what they say. -/
def agentExecuteToolCall (io : Io) (st : ToolState) (call : ToolCall) : CallOut :=
  match call.name with
  | none      => answer io st (say (lit "Tool error: missing tool name\n"))
  | some name =>
    if name = lit "read" then agentToolRead io st call
    else if name = lit "more" then agentToolMore io st call
    else if name = lit "write" then agentToolWrite io st call
    else if name = lit "edit" then agentToolEdit io st call
    else if name = lit "search" then agentToolSearch io st call
    else answer io st (say io.other)

end DS4.Agent
