import DS4.Lib.Run
import DS4.Server.Text

namespace DS4.Server

/-!
# Server — the decode loop of `generate_job`

The loop samples a token, evaluates it (alone, or as the head of a speculatively accepted batch)
and then walks over the accepted tokens, appending their bytes to the response.  The session has
the whole batch from the evaluation on; the walk can stop in the middle of it.

* `feedToken` — the body of the walk for one token; `walkBatch` — the walk.
* `Decode.iterate` — one iteration of the loop, as a step on `Decode`; a run folds it over the
  iterations.
* `BatchWhole` — no exit is taken before the last token of the batch, and none of its tokens is
  the end token.
* `session_eq_rendered_iff` — **session/text agreement**: without a stop-sequence cut, the session
  holds exactly the rendered tokens if and only if every batch of the run is walked whole.
* `eos_in_batch_diverges` — a run that ends inside a batch.
-/

/-! ### The request -/

/-- `request_kind` -/
inductive ReqKind where
  | chat
  | completion
  deriving DecidableEq

/-- `request_api` -/
inductive Api where
  | openai
  | anthropic
  | responses
  deriving DecidableEq

/-- What the loop reads of a request and of the engine. -/
structure DecodeConfig where
  kind : ReqKind
  api : Api
  stream : Bool
  hasTools : Bool
  /-- `ds4_think_mode_enabled(think_mode)` -/
  thinking : Bool
  promptText : Option Bytes
  stops : StopList
  maxTokens : Int
  /-- `ds4_session_ctx` -/
  ctx : Nat
  /-- `ds4_token_eos` -/
  eos : Nat
  /-- `ds4_token_text` -/
  tokenText : Nat → Bytes

namespace DecodeConfig

/-- `request_uses_openai_live_stream` -/
def openaiLive (cfg : DecodeConfig) : Bool :=
  cfg.stream && cfg.api = .openai && cfg.kind = .chat

/-- `request_uses_responses_live_stream` -/
def responsesLive (cfg : DecodeConfig) : Bool :=
  cfg.stream && cfg.api = .responses && cfg.kind = .chat

/-- `request_uses_structured_stream` -/
def structuredStream (cfg : DecodeConfig) : Bool :=
  cfg.stream && (cfg.api = .anthropic || cfg.api = .responses || cfg.openaiLive)

/-- Does the loop look for tool-call markers? -/
def tools (cfg : DecodeConfig) : Bool := cfg.kind = .chat && cfg.hasTools

end DecodeConfig

/-! ### Markers in the growing text -/

/-- `thinking_state`: the last bytes, and whether they are inside `<think>`. -/
structure ThinkingState where
  inside : Bool
  tail : Bytes

/-- `thinking_state_feed` for one byte; the tail keeps eight. -/
def ThinkingState.feedByte (st : ThinkingState) (c : UInt8) : ThinkingState :=
  let tail := (if st.tail.length = 8 then st.tail.drop 1 else st.tail) ++ [c]
  { tail := tail
    inside :=
      if THINK_START.isSuffixOf tail then true else if THINK_END.isSuffixOf tail then false
      else st.inside }

/-- `thinking_state_feed`. -/
def ThinkingState.feed (st : ThinkingState) (p : Bytes) : ThinkingState :=
  p.foldl ThinkingState.feedByte st

/-- `thinking_state_from_prompt`. -/
def thinkingStateFromPrompt (cfg : DecodeConfig) : ThinkingState :=
  match cfg.promptText with
  | some text => ThinkingState.feed ⟨false, []⟩ (cstr text)
  | none      => ⟨cfg.thinking, []⟩

/-- `observe_tool_markers`: the new `saw_start`, `saw_end` and `orphan_end`. -/
def observeToolMarkers (scan : Bytes) (sawStart sawEnd : Bool) : Bool × Bool × Bool :=
  let start := findAnyToolStart scan
  let ending :=
    if sawStart then findAnyToolEnd scan
    else
      match start with
      | some i => findAnyToolEnd (scan.drop i)
      | none   => none
  (sawStart || start.isSome, sawEnd || ending.isSome,
    ending.isNone && !sawStart && start.isNone && (findAnyToolEnd scan).isSome)

/-! ### The loop -/

/-- `finish`, with `error` for every failure. -/
inductive Finish where
  | length
  | stop
  | toolCalls
  | error
  deriving DecidableEq

/-- The locals of the loop, the tokens the session holds, and the tokens whose bytes were
    appended to the text. -/
structure Decode where
  session : List Nat
  /-- cleared by `ds4_session_invalidate`, which only a stop sequence calls -/
  sessionValid : Bool
  rendered : List Nat
  text : Bytes
  completion : Nat
  finish : Finish
  thinking : ThinkingState
  plainStreamPos : Nat
  stopScanFrom : Nat
  toolScanWaiting : Bool
  toolScanFrom : Nat
  sawToolStart : Bool
  sawToolEnd : Bool
  sawOrphanToolEnd : Bool
  /-- the loop has been left -/
  ended : Bool

/-- Do the stream writes of one token succeed, if they are made? -/
structure SendIo where
  plain : Bool
  anthropic : Bool
  openai : Bool
  responses : Bool

namespace Decode

variable (cfg : DecodeConfig)

/-- The state before the loop; the session holds the prompt. -/
def init (prompt : List Nat) : Decode :=
  let thinking := thinkingStateFromPrompt cfg
  { session := prompt, sessionValid := true, rendered := [], text := [], completion := 0
    finish := .length, thinking := thinking, plainStreamPos := 0, stopScanFrom := 0
    toolScanWaiting := cfg.thinking && thinking.inside, toolScanFrom := 0
    sawToolStart := false, sawToolEnd := false, sawOrphanToolEnd := false, ended := false }

/-- `max_tokens` after the two cuts before the loop. -/
def limit (prompt : List Nat) : Nat := min cfg.maxTokens.toNat (cfg.ctx - prompt.length)

/-- Append the bytes of a token to the text. -/
def append (st : Decode) (token : Nat) : Decode :=
  let piece := cfg.tokenText token
  { st with
    rendered := st.rendered ++ [token]
    text := st.text ++ piece
    completion := st.completion + 1
    thinking := st.thinking.feed piece }

/-- Where a stop sequence begins in the text, from `stop_scan_from` on. -/
def hitStop (st : Decode) : Option Nat := cfg.stops.findFrom st.text st.stopScanFrom

/-- How much of the text the streams may see. -/
def streamLen (st : Decode) : Nat :=
  let len := match st.hitStop cfg with
    | some pos => pos
    | none     => cfg.stops.streamSafeLen st.text.length
  utf8StreamSafeLen st.text st.plainStreamPos (min len st.text.length) (st.hitStop cfg).isSome

/-- Does the plain stream write a delta? -/
def plainDelta (st : Decode) : Bool :=
  cfg.stream && !cfg.structuredStream && decide (st.plainStreamPos < st.streamLen cfg)

/-- Do the stream writes of this token succeed? -/
def sendsOk (st : Decode) (io : SendIo) : Bool :=
  (!st.plainDelta cfg || io.plain) &&
    (!(cfg.stream && cfg.api = .anthropic) || io.anthropic) &&
    (!cfg.openaiLive || io.openai) && (!cfg.responsesLive || io.responses)

/-- Advance the scan for stop sequences and the plain stream. -/
def advance (st : Decode) : Decode :=
  { st with
    stopScanFrom :=
      if (st.hitStop cfg).isNone ∧ 1 < cfg.stops.maxLen then
        st.text.length - (cfg.stops.maxLen - 1) else st.stopScanFrom
    plainStreamPos := if st.plainDelta cfg then st.streamLen cfg else st.plainStreamPos }

/-- Look for tool-call markers in the part of the text that may still have new ones. -/
def scanTools (st : Decode) : Decode :=
  if cfg.thinking && st.thinking.inside then
    { st with toolScanWaiting := true, toolScanFrom := st.text.length }
  else
    let scanFrom :=
      if st.toolScanWaiting then
        match findLastSubstr st.text THINK_END with
        | some i => min (i + 8) st.text.length
        | none   => st.text.length
      else min st.toolScanFrom st.text.length
    let seen := observeToolMarkers (st.text.drop scanFrom) st.sawToolStart st.sawToolEnd
    { st with
      toolScanWaiting := false
      toolScanFrom := max scanFrom (st.text.length - 80)
      sawToolStart := seen.1
      sawToolEnd := seen.2.1
      sawOrphanToolEnd := st.sawOrphanToolEnd || seen.2.2 }

/-- The body of the walk for one token that is not the end token; the flag is `stop_decode`. -/
def feedToken (st : Decode) (token : Nat) (io : SendIo) : Decode × Bool :=
  let st := st.append cfg token
  if st.sendsOk cfg io = false then ({ st with finish := .error }, true)
  else
    let hit := st.hitStop cfg
    let st := st.advance cfg
    let st := if cfg.tools then st.scanTools cfg else st
    match hit with
    | some pos =>
      ({ st with finish := .stop, text := st.text.take pos, sessionValid := false }, true)
    | none =>
      if cfg.tools && st.sawToolEnd then ({ st with finish := .toolCalls }, true) else (st, false)

/-- The walk over the accepted tokens. -/
def walkBatch (max : Nat) : Decode → List (Nat × SendIo) → Decode
  | st, []                  => st
  | st, (token, io) :: toks =>
    if st.completion < max then
      if token = cfg.eos then { st with finish := .stop, ended := true }
      else
        let r := st.feedToken cfg token io
        if r.2 then { r.1 with ended := true } else walkBatch max r.1 toks
    else st

end Decode

/-- What `ds4_session_eval` or `ds4_session_eval_speculative_argmax` reports: an error, or the
    tokens it appended to the session (one, or a batch), here with the outcome of the stream
    writes each of them causes. -/
inductive Evaluated where
  | failed
  | tokens (toks : List (Nat × SendIo))

/-- One iteration: was a stop of the server requested, what was sampled, what the evaluation
    reports. -/
structure Iteration where
  stopRequested : Bool
  sampled : Nat
  evaluated : Evaluated

namespace Decode

variable (cfg : DecodeConfig)

/-- The condition of the `while` loop. -/
def continues (max : Nat) (st : Decode) (it : Iteration) : Bool :=
  !st.ended && !it.stopRequested && decide (st.completion < max) &&
    decide (st.session.length < cfg.ctx)

/-- The evaluation has appended its tokens to the session. -/
def commit (st : Decode) (toks : List (Nat × SendIo)) : Decode :=
  { st with session := st.session ++ toks.map Prod.fst }

/-- One iteration of the loop. -/
def iterate (max : Nat) (st : Decode) (it : Iteration) : Decode :=
  if st.continues cfg max it = false then { st with ended := true }
  else if it.sampled = cfg.eos then { st with finish := .stop, ended := true }
  else
    match it.evaluated with
    | .failed      => { st with finish := .error, ended := true }
    | .tokens toks => walkBatch cfg max (st.commit toks) toks

/-- No exit of the walk is taken before the last token, and no token is the end token. -/
def BatchWhole (max : Nat) : Decode → List (Nat × SendIo) → Prop
  | _, []                   => True
  | st, (token, io) :: toks =>
    token ≠ cfg.eos ∧ (toks ≠ [] →
      (st.feedToken cfg token io).2 = false ∧ (st.feedToken cfg token io).1.completion < max ∧
        BatchWhole max (st.feedToken cfg token io).1 toks)

/-- The batch of an iteration, if it evaluates one, is walked whole. -/
def IterationWhole (max : Nat) (st : Decode) (it : Iteration) : Prop :=
  st.continues cfg max it = true → it.sampled ≠ cfg.eos → ∀ toks, it.evaluated = .tokens toks →
    BatchWhole cfg max (st.commit toks) toks

/-! ### What one token changes -/

variable {cfg} {st : Decode} {max : Nat}

/-- The search for markers touches neither the session nor the response. -/
theorem scanIf_frame (cfg : DecodeConfig) (st : Decode) :
    (if cfg.tools = true then st.scanTools cfg else st).session = st.session ∧
      (if cfg.tools = true then st.scanTools cfg else st).rendered = st.rendered ∧
      (if cfg.tools = true then st.scanTools cfg else st).text = st.text ∧
      (if cfg.tools = true then st.scanTools cfg else st).completion = st.completion ∧
      (if cfg.tools = true then st.scanTools cfg else st).sessionValid = st.sessionValid := by
  split
  · unfold scanTools
    split <;> exact ⟨rfl, rfl, rfl, rfl, rfl⟩
  · exact ⟨rfl, rfl, rfl, rfl, rfl⟩

/-- The token is counted and rendered whatever happens to it afterwards; only a stop sequence
    takes text away, and it invalidates the session. -/
theorem feedToken_spec (cfg : DecodeConfig) (st : Decode) (token : Nat) (io : SendIo) :
    (st.feedToken cfg token io).1.session = st.session ∧
      (st.feedToken cfg token io).1.rendered = st.rendered ++ [token] ∧
      (st.feedToken cfg token io).1.completion = st.completion + 1 ∧
      ((st.feedToken cfg token io).1.sessionValid = true →
        st.sessionValid = true ∧
          (st.feedToken cfg token io).1.text = st.text ++ cfg.tokenText token) := by
  unfold feedToken
  dsimp only
  split
  · exact ⟨rfl, rfl, rfl, fun hv => ⟨hv, rfl⟩⟩
  -- the streams took the bytes: the scans run, then the two remaining exits
  · obtain ⟨h1, h2, h3, h4, h5⟩ := scanIf_frame cfg ((st.append cfg token).advance cfg)
    generalize (if cfg.tools = true then ((st.append cfg token).advance cfg).scanTools cfg
      else (st.append cfg token).advance cfg) = scanned at h1 h2 h3 h4 h5 ⊢
    split
    · refine ⟨h1, h2, h4, ?_⟩
      intro hv
      exact absurd hv (by simp)
    · split
      · exact ⟨h1, h2, h4, fun hv => ⟨(h5.symm).trans hv, h3⟩⟩
      · exact ⟨h1, h2, h4, fun hv => ⟨(h5.symm).trans hv, h3⟩⟩

/-! ### What the walk changes -/

/-- At the token limit the walk does nothing. -/
theorem walkBatch_of_le (h : max ≤ st.completion) (toks : List (Nat × SendIo)) :
    walkBatch cfg max st toks = st := by
  cases toks with
  | nil => rfl
  | cons tok toks =>
    have hnot : ¬ st.completion < max := by omega
    show (if st.completion < max then _ else st) = st
    rw [if_neg hnot]

/-- **The walk.** It renders a first part of the batch, all of it exactly if the batch is walked
    whole, and leaves the loop otherwise. -/
theorem walkBatch_spec (st : Decode) (toks : List (Nat × SendIo)) (hmax : st.completion < max)
    (hv : (walkBatch cfg max st toks).sessionValid = true) :
    (walkBatch cfg max st toks).session = st.session ∧ st.sessionValid = true ∧
      ∃ walked, (walkBatch cfg max st toks).rendered = st.rendered ++ walked ∧
        (walkBatch cfg max st toks).text = st.text ++ walked.flatMap cfg.tokenText ∧
        (walked = toks.map Prod.fst ↔ BatchWhole cfg max st toks) ∧
        (walked ≠ toks.map Prod.fst → (walkBatch cfg max st toks).ended = true ∨
          max ≤ (walkBatch cfg max st toks).completion) := by
  induction toks generalizing st with
  | nil => exact ⟨rfl, hv, [], by simp [walkBatch], by simp [walkBatch], by simp [BatchWhole], by simp⟩
  | cons tok toks ih =>
    rcases tok with ⟨token, io⟩
    rw [walkBatch, if_pos hmax] at hv ⊢
    by_cases heos : token = cfg.eos
    -- the end token: nothing of the rest of the batch is rendered
    · rw [if_pos heos] at hv ⊢
      refine ⟨rfl, hv, [], by simp, by simp, ?_, fun _ => Or.inl rfl⟩
      simp [BatchWhole, heos]
    rw [if_neg heos] at hv ⊢
    obtain ⟨hsess, hrend, hcomp, hvalid⟩ := feedToken_spec cfg st token io
    dsimp only at hv ⊢
    by_cases hstop : (st.feedToken cfg token io).2 = true
    -- an exit is taken at this token: whole only if it is the last one
    · rw [if_pos hstop] at hv ⊢
      obtain ⟨hstv, htext⟩ := hvalid hv
      refine ⟨hsess, hstv, [token], hrend, by simpa using htext, ?_, fun _ => Or.inl rfl⟩
      by_cases hlast : toks = []
      · simp [BatchWhole, heos, hlast]
      · simp [BatchWhole, heos, hlast, hstop]
    rw [if_neg hstop] at hv ⊢
    rw [Bool.not_eq_true] at hstop
    by_cases hlim : (st.feedToken cfg token io).1.completion < max
    · obtain ⟨hs, hfv, walked, hr, ht, hiff, hout⟩ := ih _ hlim hv
      obtain ⟨hstv, htext⟩ := hvalid hfv
      refine ⟨hs.trans hsess, hstv, token :: walked, ?_, ?_, ?_, ?_⟩
      · rw [hr, hrend, List.append_assoc]
        rfl
      · rw [ht, htext, List.append_assoc]
        rfl
      · rw [List.map_cons, List.cons.injEq, BatchWhole, hiff]
        constructor
        · rintro ⟨-, hw⟩
          exact ⟨heos, fun _ => ⟨hstop, hlim, hw⟩⟩
        · rintro ⟨-, hw⟩
          refine ⟨rfl, ?_⟩
          by_cases hlast : toks = []
          · rw [hlast]
            trivial
          · exact (hw hlast).2.2
      · intro hne
        apply hout
        intro hw
        exact hne (by rw [hw, List.map_cons])
    -- the token limit is reached at this token
    · rw [walkBatch_of_le (by omega)] at hv ⊢
      obtain ⟨hstv, htext⟩ := hvalid hv
      refine ⟨hsess, hstv, [token], hrend, by simpa using htext, ?_, fun _ => Or.inr (by omega)⟩
      by_cases hlast : toks = []
      · simp [BatchWhole, heos, hlast]
      · simp [BatchWhole, heos, hlast, hlim]

/-! ### Runs of the loop -/

/-- The loop has been left, or its condition on the token limit fails. -/
def Stuck (max : Nat) (st : Decode) : Prop := st.ended = true ∨ max ≤ st.completion

/-- After the loop nothing is added to the session or to the response. -/
theorem iterate_of_stuck (h : Stuck max st) (it : Iteration) :
    iterate cfg max st it = { st with ended := true } := by
  have hc : st.continues cfg max it = false := by
    rcases h with h | h
    · simp [continues, h]
    · have hnot : ¬ st.completion < max := by omega
      simp [continues, hnot]
  unfold iterate
  rw [if_pos hc]

/-- A run that has been left stays as it is. -/
theorem foldl_of_stuck (h : Stuck max st) (its : List Iteration) :
    (its.foldl (iterate cfg max) st).session = st.session ∧
      (its.foldl (iterate cfg max) st).rendered = st.rendered ∧
      (its.foldl (iterate cfg max) st).text = st.text := by
  induction its generalizing st with
  | nil => exact ⟨rfl, rfl, rfl⟩
  | cons it its ih =>
    rw [List.foldl_cons, iterate_of_stuck h it]
    exact @ih { st with ended := true } (Or.inl rfl)

/-- **One iteration.** Without a stop sequence, an iteration adds the same tokens to the session
    and to the response exactly if its batch is walked whole; otherwise the loop is left. -/
theorem iterate_spec (it : Iteration) (hv : (iterate cfg max st it).sessionValid = true) :
    st.sessionValid = true ∧ ∃ taken walked,
      (iterate cfg max st it).session = st.session ++ taken ∧
      (iterate cfg max st it).rendered = st.rendered ++ walked ∧
      (iterate cfg max st it).text = st.text ++ walked.flatMap cfg.tokenText ∧
      (walked = taken ↔ IterationWhole cfg max st it) ∧
      (walked ≠ taken → Stuck max (iterate cfg max st it)) := by
  unfold iterate at hv ⊢
  by_cases hc : st.continues cfg max it = false
  · rw [if_pos hc] at hv ⊢
    exact ⟨hv, [], [], by simp, by simp, by simp, by simp [IterationWhole, hc], by simp⟩
  rw [if_neg hc] at hv ⊢
  by_cases heos : it.sampled = cfg.eos
  · rw [if_pos heos] at hv ⊢
    exact ⟨hv, [], [], by simp, by simp, by simp, by simp [IterationWhole, heos], by simp⟩
  rw [if_neg heos] at hv ⊢
  cases he : it.evaluated with
  | failed =>
    rw [he] at hv
    exact ⟨hv, [], [], by simp, by simp, by simp, by simp [IterationWhole, he], by simp⟩
  | tokens toks =>
    rw [he] at hv
    dsimp only at hv ⊢
    have hmax : st.completion < max := by
      simp only [continues, Bool.not_eq_false, Bool.and_eq_true, decide_eq_true_eq] at hc
      omega
    obtain ⟨hs, hstv, walked, hr, ht, hiff, hout⟩ :=
      walkBatch_spec (st.commit toks) toks hmax hv
    refine ⟨hstv, toks.map Prod.fst, walked, hs, hr, ht, ?_, hout⟩
    rw [hiff]
    rw [Bool.not_eq_false] at hc
    simp [IterationWhole, hc, heos, he]

/-- A stop sequence is final: the session stays invalid. -/
theorem sessionValid_of_foldl (its : List Iteration)
    (hv : (its.foldl (iterate cfg max) st).sessionValid = true) : st.sessionValid = true := by
  induction its generalizing st with
  | nil => exact hv
  | cons it its ih =>
    rw [List.foldl_cons] at hv
    exact (iterate_spec it (ih hv)).1

/-- From a state in which session and response agree, the run keeps the agreement exactly if it
    walks every batch whole. -/
theorem agree_iff_guarded (prompt : List Nat) (its : List Iteration)
    (hst : st.session = prompt ++ st.rendered)
    (hv : (its.foldl (iterate cfg max) st).sessionValid = true) :
    (its.foldl (iterate cfg max) st).session
        = prompt ++ (its.foldl (iterate cfg max) st).rendered ↔
      Lib.Guarded (iterate cfg max) (IterationWhole cfg max) st its := by
  induction its generalizing st with
  | nil => exact ⟨fun _ => trivial, fun _ => hst⟩
  | cons it its ih =>
    rw [List.foldl_cons] at hv ⊢
    rw [Lib.guarded_cons]
    obtain ⟨-, taken, walked, hs, hr, -, hiff, hout⟩ := iterate_spec it (sessionValid_of_foldl its hv)
    by_cases hwhole : IterationWhole cfg max st it
    · have hagree : (iterate cfg max st it).session
          = prompt ++ (iterate cfg max st it).rendered := by
        rw [hs, hr, hst, hiff.mpr hwhole, List.append_assoc]
      rw [ih hagree hv]
      exact ⟨fun h => ⟨hwhole, h⟩, fun h => h.2⟩
    -- the batch is left early: the loop is over, and what is missing stays missing
    · have hne : walked ≠ taken := fun h => hwhole (hiff.mp h)
      obtain ⟨hs', hr', -⟩ := foldl_of_stuck (hout hne) its
      constructor
      · intro heq
        rw [hs', hr', hs, hr, hst, List.append_assoc] at heq
        have htaken : st.rendered ++ taken = st.rendered ++ walked := List.append_cancel_left heq
        exact absurd (List.append_cancel_left htaken).symm hne
      · intro hguard
        exact absurd hguard.1 hwhole

/-- Without a stop sequence the response is the bytes of the rendered tokens. -/
theorem text_eq_flatMap (its : List Iteration) (hst : st.text = st.rendered.flatMap cfg.tokenText)
    (hv : (its.foldl (iterate cfg max) st).sessionValid = true) :
    (its.foldl (iterate cfg max) st).text
      = (its.foldl (iterate cfg max) st).rendered.flatMap cfg.tokenText := by
  induction its generalizing st with
  | nil => exact hst
  | cons it its ih =>
    rw [List.foldl_cons] at hv ⊢
    obtain ⟨-, taken, walked, -, hr, ht, -, -⟩ := iterate_spec it (sessionValid_of_foldl its hv)
    apply ih _ hv
    rw [ht, hr, hst, List.flatMap_append]

end Decode

/-! ### Session and text -/

open Decode in
/-- **Session/text agreement.** When the loop ends without a stop-sequence cut, the response is
    the bytes of the rendered tokens, and the session holds exactly these after the prompt if and
    only if every batch was walked whole. -/
theorem session_eq_rendered_iff (cfg : DecodeConfig) (prompt : List Nat) (its : List Iteration)
    (hv : (its.foldl (iterate cfg (limit cfg prompt)) (Decode.init cfg prompt)).sessionValid
      = true) :
    (its.foldl (iterate cfg (limit cfg prompt)) (Decode.init cfg prompt)).text
        = (its.foldl (iterate cfg (limit cfg prompt)) (Decode.init cfg prompt)).rendered.flatMap
            cfg.tokenText ∧
      ((its.foldl (iterate cfg (limit cfg prompt)) (Decode.init cfg prompt)).session
          = prompt ++
            (its.foldl (iterate cfg (limit cfg prompt)) (Decode.init cfg prompt)).rendered ↔
        Lib.Guarded (iterate cfg (limit cfg prompt)) (IterationWhole cfg (limit cfg prompt))
          (Decode.init cfg prompt) its) := by
  constructor
  · apply text_eq_flatMap its _ hv
    show [] = List.flatMap cfg.tokenText []
    rfl
  · apply agree_iff_guarded prompt its _ hv
    show prompt = prompt ++ []
    rw [List.append_nil]

/-- A plain completion request without stop sequences; token 0 is the end token. -/
def plainRequest : DecodeConfig where
  kind := .completion
  api := .openai
  stream := false
  hasTools := false
  thinking := false
  promptText := none
  stops := []
  maxTokens := 8
  ctx := 16
  eos := 0
  tokenText := fun token => [97 + UInt8.ofNat token]

/-- An iteration that samples token 1 and gets the batch `toks` back. -/
def sampleOne (toks : List Nat) : Iteration where
  stopRequested := false
  sampled := 1
  evaluated := .tokens (toks.map fun token => (token, ⟨true, true, true, true⟩))

open Decode in
/-- A batch of two tokens, walked whole, keeps the agreement. -/
theorem whole_batch_agrees :
    ([sampleOne [1, 2]].foldl (iterate plainRequest (limit plainRequest [7]))
        (Decode.init plainRequest [7])).session
      = [7] ++ ([sampleOne [1, 2]].foldl (iterate plainRequest (limit plainRequest [7]))
        (Decode.init plainRequest [7])).rendered := by
  apply (session_eq_rendered_iff plainRequest [7] [sampleOne [1, 2]] (by decide)).2.mpr
  refine ⟨?_, trivial⟩
  rintro - - toks htoks
  have h : toks = [(1, ⟨true, true, true, true⟩), (2, ⟨true, true, true, true⟩)] :=
    (Evaluated.tokens.inj htoks).symm
  subst h
  exact ⟨by decide, fun _ => ⟨by decide, by decide, by decide, fun h => absurd rfl h⟩⟩

open Decode in
/-- **An end token inside a batch.** The session has it, the response has not. -/
theorem eos_in_batch_diverges :
    ([sampleOne [1, 0]].foldl (iterate plainRequest (limit plainRequest [7]))
        (Decode.init plainRequest [7])).sessionValid = true ∧
      ([sampleOne [1, 0]].foldl (iterate plainRequest (limit plainRequest [7]))
          (Decode.init plainRequest [7])).session
        ≠ [7] ++ ([sampleOne [1, 0]].foldl (iterate plainRequest (limit plainRequest [7]))
          (Decode.init plainRequest [7])).rendered := by
  decide

end DS4.Server
