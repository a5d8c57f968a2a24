import DS4.Lib.Find

namespace DS4.Server

/-!
# Server — texts as bytes

The server works on C strings: a buffer of bytes whose searches stop at the first NUL.

* `lit` — the bytes of a literal; `cstr` — what `strlen` and `strstr` see of a buffer.
* `strstr`, `findLastSubstr` — substring searches.
* `DSML`, `TOOL_CALLS_START`, … — the tool-call markers, and `findAnyToolStart` /
  `findAnyToolEnd`.
* `utf8StreamSafeLen`, `StopList` — what a stream may send of a text that is still growing.
-/

/-- Buffers and texts. -/
abbrev Bytes := List UInt8

/-- The UTF-8 bytes of a literal. -/
def lit (s : String) : Bytes := s.toList.flatMap String.utf8EncodeChar

/-- The C string at the start of a buffer. -/
def cstr (s : Bytes) : Bytes := s.takeWhile (fun c => c ≠ 0)

/-- `strstr(s, pat)`, as an offset. -/
def strstr (s pat : Bytes) : Option Nat := Lib.findSub pat (cstr s)

/-- `find_last_substr`, as an offset. -/
def findLastSubstr (s pat : Bytes) : Option Nat :=
  if pat = [] then none else Lib.findLast pat (cstr s)

/-- `isspace` in the C locale. -/
def isspace (c : UInt8) : Bool := c == 0x20 || (0x09 ≤ c && c ≤ 0x0d)

/-! ### Markers -/

/-- `DS4_DSML` -/
def DSML : Bytes := lit "｜DSML｜"
/-- `DS4_DSML_SHORT` -/
def DSML_SHORT : Bytes := lit "DSML｜"
/-- `DS4_TOOL_CALLS_START` -/
def TOOL_CALLS_START : Bytes := lit "<" ++ DSML ++ lit "tool_calls>"
/-- `DS4_TOOL_CALLS_END` -/
def TOOL_CALLS_END : Bytes := lit "</" ++ DSML ++ lit "tool_calls>"
/-- `DS4_TOOL_CALLS_START_SHORT` -/
def TOOL_CALLS_START_SHORT : Bytes := lit "<" ++ DSML_SHORT ++ lit "tool_calls>"
/-- `DS4_TOOL_CALLS_END_SHORT` -/
def TOOL_CALLS_END_SHORT : Bytes := lit "</" ++ DSML_SHORT ++ lit "tool_calls>"
/-- The plain spelling of the block start. -/
def TOOL_CALLS_START_PLAIN : Bytes := lit "<tool_calls>"
/-- The plain spelling of the block end. -/
def TOOL_CALLS_END_PLAIN : Bytes := lit "</tool_calls>"
/-- `<think>` -/
def THINK_START : Bytes := lit "<think>"
/-- `</think>` -/
def THINK_END : Bytes := lit "</think>"

/-- The earliest of some candidate positions; of two equal ones the first counts. -/
def earliest (candidates : List (Option Nat)) : Option Nat :=
  candidates.foldl
    (fun best c =>
      match c, best with
      | some i, some b => if i < b then some i else some b
      | some i, none   => some i
      | none, b        => b)
    none

theorem earliest_mem {candidates : List (Option Nat)} {i : Nat} (h : earliest candidates = some i) :
    some i ∈ candidates := by
  have hchoice : earliest candidates = none ∨ earliest candidates ∈ candidates := by
    apply Lib.foldl_choice
    rintro (_ | b) (_ | c)
    · exact Or.inl rfl
    · exact Or.inr rfl
    · exact Or.inl rfl
    · dsimp only
      split
      · exact Or.inr rfl
      · exact Or.inl rfl
  rw [h] at hchoice
  exact hchoice.resolve_left (by simp)

theorem earliest_eq_none {candidates : List (Option Nat)} (h : earliest candidates = none) :
    ∀ c ∈ candidates, c = none := by
  unfold earliest at h
  refine (Lib.foldl_forall (p := (· = none)) ?_ h).2
  rintro (_ | b) (_ | c) hnone
  · exact ⟨rfl, rfl⟩
  · exact absurd hnone (by simp)
  · exact absurd hnone (by simp)
  · dsimp only at hnone
    split at hnone <;> exact absurd hnone (by simp)

/-- What `strstr` finds stands in the text. -/
theorem strstr_prefix {raw pat : Bytes} {pos i : Nat} (h : strstr (raw.drop pos) pat = some i) :
    pat <+: raw.drop (pos + i) := by
  unfold strstr at h
  obtain ⟨-, hp, -⟩ := (Lib.findSub_eq_some_iff).mp h
  rw [← List.drop_drop]
  exact hp.trans ((List.takeWhile_prefix _).drop i)

/-- `find_any_tool_start`. -/
def findAnyToolStart (s : Bytes) : Option Nat :=
  earliest [strstr s TOOL_CALLS_START, strstr s TOOL_CALLS_START_SHORT,
    strstr s TOOL_CALLS_START_PLAIN]

/-- `find_any_tool_end`. -/
def findAnyToolEnd (s : Bytes) : Option Nat :=
  earliest [strstr s TOOL_CALLS_END, strstr s TOOL_CALLS_END_SHORT,
    strstr s TOOL_CALLS_END_PLAIN]

/-! ### What may be streamed -/

/-- `utf8_expected_len`. -/
def utf8ExpectedLen (c : UInt8) : Nat :=
  if c < 0x80 then 1
  else if 0xc2 ≤ c ∧ c ≤ 0xdf then 2
  else if 0xe0 ≤ c ∧ c ≤ 0xef then 3
  else if 0xf0 ≤ c ∧ c ≤ 0xf4 then 4
  else 1

/-- Is `c` a UTF-8 continuation byte? -/
def isContinuation (c : UInt8) : Bool := c &&& 0xc0 == 0x80

/-- The backward loop of `utf8_stream_safe_len`: step over at most `fuel` continuation bytes
    before `p`, not past `start`. -/
def utf8BackUp (s : Bytes) (start : Nat) : Nat → Nat → Nat
  | 0, p        => p
  | fuel + 1, p =>
    if start < p ∧ isContinuation (s.getD (p - 1) 0) then utf8BackUp s start fuel (p - 1) else p

/-- `utf8_stream_safe_len`: the largest length up to `limit` that does not cut a character
    which the text may still complete. -/
def utf8StreamSafeLen (s : Bytes) (start limit : Nat) (final : Bool) : Nat :=
  if final ∨ limit ≤ start then limit
  else
    let p := utf8BackUp s start 4 limit
    if p = limit then
      if 1 < utf8ExpectedLen (s.getD (limit - 1) 0) then limit - 1 else limit
    else if p = start ∧ isContinuation (s.getD p 0) then start
    else
      let lead := p - 1
      if limit - lead < utf8ExpectedLen (s.getD lead 0) then lead else limit

/-- A `stop_list`: the stop sequences of a request. -/
abbrev StopList := List Bytes

namespace StopList

/-- `stops->max_len` -/
def maxLen (stops : StopList) : Nat := (stops.map List.length).foldl max 0

/-- `stop_list_find_from`: where the first stop sequence at or after `start` begins. -/
def findFrom (stops : StopList) (text : Bytes) (start : Nat) : Option Nat :=
  (earliest (stops.map (strstr (text.drop start)))).map (start + ·)

/-- `stop_list_stream_safe_len`. -/
def streamSafeLen (stops : StopList) (textLen : Nat) : Nat :=
  if stops = [] ∨ stops.maxLen ≤ 1 then textLen
  else textLen - (stops.maxLen - 1)

end StopList

end DS4.Server
