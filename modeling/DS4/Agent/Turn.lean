import DS4.Agent.Transcript
import DS4.Tokenizer.RenderedChat

namespace DS4.Agent

/-!
# Agent — a user turn

A turn appends the user's message, and then rounds of an answer and a tool result until an answer calls no
tool.  Session calls may fail, and the user may interrupt; a transcript that grows too long is compacted
into a summary and its last tokens.

What the session, the model, the tools and the user do is given: an interruption is the end of a list of
samples.

* `agentWorkerCompact` — the compaction.
* `workerRunTurn` — a turn, as rounds.
* `TurnClean` — the turns in which nothing fails while a message is open.
* `turns_complete` — such turns leave complete messages.
-/

open DS4.Tokenizer

/-- What a turn reads of the configuration. -/
structure AgentConfig where
  ctxSize  : Int
  nPredict : Int
  think    : Bool
deriving DecidableEq, Repr

/-! ### Compaction -/

def AGENT_TOOL_RESULT_RESERVE_TOKENS : Int := 1024
def AGENT_COMPACT_SOFT_PERCENT : Int := 85
def AGENT_COMPACT_MIN_FREE_TOKENS : Int := 8192
def AGENT_COMPACT_TAIL_DIVISOR : Int := 10
def AGENT_COMPACT_TAIL_CAP_TOKENS : Int := 50000
def AGENT_COMPACT_SUMMARY_MAX_TOKENS : Int := 4096

/-- What happens in a compaction: the session takes the prompt, the samples of the summary with their
    evaluations, the session takes the compacted transcript, and the report about running jobs. -/
structure CompactIn where
  sync       : Bool
  summary    : List (Int × Bool)
  resync     : Bool
  bashUpdate : Option Bytes
deriving DecidableEq, Repr

/-- `agent_worker_should_compact` -/
def agentWorkerShouldCompact (cfg : AgentConfig) (tr : Transcript) : Bool :=
  let used : Int := tr.length
  if cfg.ctxSize ≤ 0 ∨ used ≤ 0 then false
  else if (cfg.ctxSize * AGENT_COMPACT_SOFT_PERCENT).tdiv 100 ≤ used then true
  else decide (cfg.ctxSize - used ≤ min AGENT_COMPACT_MIN_FREE_TOKENS (cfg.ctxSize.tdiv 4))

/-- `agent_special_token_id` -/
def agentSpecialTokenId (v : Vocab) (rendered : Bytes) : Int :=
  match tokenizeRenderedChatVocab v rendered with
  | [id] => id
  | _    => -1

/-- The number of tokens that a compaction keeps. -/
def tailBudget (cfg : AgentConfig) : Int :=
  max 1 (min AGENT_COMPACT_TAIL_CAP_TOKENS (cfg.ctxSize.tdiv AGENT_COMPACT_TAIL_DIVISOR))

/-- `agent_compact_tail_start` -/
def agentCompactTailStart (cfg : AgentConfig) (v : Vocab) (tr : Transcript) (sysLen : Nat) : Nat :=
  let target := (max ((tr.length : Int) - tailBudget cfg) sysLen).toNat
  let userId := agentSpecialTokenId v USER
  if userId < 0 then target
  else
    match (tr.drop target).findIdx? fun t => t.id = userId with
    | some i => target + i
    | none   => target

/-- `agent_compact_make_prompt` -/
def agentCompactMakePrompt (reason : Bytes) : Bytes :=
  let b : AgentBuf := ({} : AgentBuf).puts (lit
    ("Internal ds4-agent context compaction request. This is not a user request.\n" ++
    "Write a durable task-state summary of the conversation so far. " ++
    "Preserve only facts that matter for continuing the work:\n" ++
    "- user goals, constraints, and preferences\n" ++
    "- files inspected or edited\n" ++
    "- commands run and important results\n" ++
    "- decisions, rejected approaches, known bugs, and pending next steps\n" ++
    "- reloadable bulky data with exact paths/ranges/commands when available\n\n" ++
    "Do not invent facts. Do not include generic narration. " ++
    "Do not include raw file contents unless they were essential to a conclusion.\n" ++
    "After the summary, stop. Do not continue the user task, do not call tools, " ++
    "and do not output thinking tags or DSML markup.\n" ++
    "Output only the compact summary.\n"))
  if reason = [] then b.take
  else ((b.puts (lit "\nCompaction reason: ")).puts reason |>.puts (lit "\n")).take

/-- The loop over the samples of the summary; `none` when it is interrupted or fails. -/
def summaryLoop (v : Vocab) (thinkEndId dsmlId : Int) : Nat → List (Int × Bool) → AgentBuf → Option AgentBuf
  | 0, _, summary                       => some summary
  | _ + 1, [], _                        => none
  | n + 1, (token, evalOk) :: ss, summary =>
    if token = v.eosId then some summary
    else if token = thinkEndId ∨ token = dsmlId then
      if token = dsmlId ∧ summary.bytes.getLast? = some 0x3c then
        some { summary with ptr := some summary.bytes.dropLast }
      else some summary
    else if evalOk then
      summaryLoop v thinkEndId dsmlId n ss (summary.append (tokenText v token))
    else none

/-- The exchange of `agent_worker_compact` with the model: the summary, if there is one. -/
def compactSummary (cfg : AgentConfig) (v : Vocab) (tr : Transcript) (reason : Bytes) (ci : CompactIn) :
    Option Bytes :=
  let prompt := chatAppendMessage v tr .user (agentCompactMakePrompt reason)
  let prompt := chatAppendAssistantPrefix v prompt false
  let summaryRoom := cfg.ctxSize - prompt.length - 1
  if summaryRoom < 256 then none
  else if ci.sync then
    let thinkEndId := agentSpecialTokenId v THINK_END
    let dsmlId := agentSpecialTokenId v DSML
    (summaryLoop v thinkEndId dsmlId (min summaryRoom AGENT_COMPACT_SUMMARY_MAX_TOKENS).toNat ci.summary
      {}).bind fun summary => if cstr summary.bytes = [] then none else some summary.bytes
  else none

/-- The message in which the summary stands. -/
def summaryMessage (summary : Bytes) : Bytes :=
  let b : AgentBuf := (({} : AgentBuf).puts (lit
    "\n\n[ds4-agent compacted earlier conversation. Durable task-state summary follows.]\n")).puts summary
  let b := if b.bytes.getLast?.any (· ≠ 0x0a) then b.puts (lit "\n") else b
  (b.puts (lit
    "[End compacted summary. Recent conversation continues verbatim below.]\n\n")).take

/-- The tokens of the system part. -/
def systemToks (sys : List Int) : Transcript := sys.map fun id => ⟨id, .system⟩

/-- The system part, the summary and the tail. -/
def compacted (cfg : AgentConfig) (v : Vocab) (sys : List Int) (tr : Transcript) (summary : Bytes) :
    Transcript :=
  chatAppendMessage v (systemToks sys) .system (summaryMessage summary) ++
    tr.drop (agentCompactTailStart cfg v tr sys.length)

/-- `agent_worker_compact`; `none` when it fails, which leaves the transcript as it is. -/
def agentWorkerCompact (cfg : AgentConfig) (v : Vocab) (sys : List Int) (tr : Transcript) (reason : Bytes)
    (ci : CompactIn) : Option Transcript :=
  if tr.length ≤ sys.length then some tr
  else
    match compactSummary cfg v tr reason ci with
    | none         => none
    | some summary =>
      if ci.resync then
        match ci.bashUpdate with
        | none        => some (compacted cfg v sys tr summary)
        | some update => some (chatAppendMessage v (compacted cfg v sys tr summary) .tool update)
      else none

/-- `agent_worker_compact_if_needed` -/
def agentWorkerCompactIfNeeded (cfg : AgentConfig) (v : Vocab) (sys : List Int) (tr : Transcript)
    (reason : Bytes) (ci : CompactIn) : Option Transcript :=
  if agentWorkerShouldCompact cfg tr then agentWorkerCompact cfg v sys tr reason ci else some tr

/-! ### Rounds -/

/-- The state of the DSML parser behind a token. -/
inductive DsmlState where
  | search
  | done
  | error
deriving DecidableEq, Repr

/-- A sample, whether it is evaluated, and the parser behind its text. -/
structure SampleIn where
  token  : Int
  evalOk : Bool
  dsml   : DsmlState
deriving DecidableEq, Repr

/-- What happens in a round: the compaction before it, the session takes the transcript and stands at a
    position, the samples until an interruption, what the parser says at the end, whether a user prompt is
    queued, the result of the tools, and the compaction before the result. -/
structure RoundIn where
  compact     : CompactIn
  sync        : Bool
  pos         : Int
  samples     : List SampleIn
  dsmlInThink : Bool
  dsmlError   : Bytes
  queued      : Bool
  toolResult  : Bytes
  toolCompact : CompactIn
deriving DecidableEq, Repr

/-- How many tokens an answer may have. -/
def maxTokens (cfg : AgentConfig) (pos : Int) : Nat :=
  let room := cfg.ctxSize - pos
  (if room ≤ 1 then 0 else if room - 1 < cfg.nPredict then room - 1 else cfg.nPredict).toNat

/-- How the decode loop ends: an evaluation fails, or the answer has a tool call, a malformed one or none. -/
inductive Decoded where
  | failed (tr : Transcript)
  | ended (tr : Transcript) (gotTool malformedTool : Bool)

/-- The decode loop. -/
def decodeLoop (v : Vocab) : Nat → List SampleIn → Transcript → Decoded
  | n + 1, s :: ss, tr =>
    if s.token = v.eosId then .ended tr false false
    else if s.evalOk then
      let tr := tr ++ [⟨s.token, .sampled⟩]
      match s.dsml with
      | .done   => .ended tr true false
      | .error  => .ended tr false true
      | .search => decodeLoop v n ss tr
    else .failed tr
  | _, _, tr           => .ended tr false false

/-- `agent_tool_result_fits_context` -/
def agentToolResultFitsContext (cfg : AgentConfig) (v : Vocab) (tr : Transcript) (result : Bytes)
    (reserve : Int) : Bool :=
  decide (((chatAppendMessage v tr .tool result).length : Int) + reserve < cfg.ctxSize)

/-- The result of a malformed tool call. -/
def malformedResult (error : Bytes) : AgentBuf :=
  ((({} : AgentBuf).puts (lit "Tool error: invalid DSML tool call: ")).puts
    (if error = [] then lit "parse error" else error)).puts (lit "\n")

/-- The result when the user has a prompt queued. -/
def queuedResult (malformedTool : Bool) (error : Bytes) : Bytes :=
  if malformedTool then
    ((malformedResult error).puts
      (lit "Tool execution stopped because a queued user prompt is pending.\n")).take
  else lit "Tool call not executed because a queued user prompt is pending.\n"

/-- The result that says that the result does not fit. -/
def unfitResult (cfg : AgentConfig) (projected : Nat) : Bytes :=
  (({} : AgentBuf).puts ((lit
    ("Tool error: tool result still does not fit after context compaction (projected_prompt=" ++
    toString projected ++ " tokens, ctx=" ++ toString cfg.ctxSize ++ ", reserve=" ++
    toString AGENT_TOOL_RESULT_RESERVE_TOKENS ++
    "). Retry with a smaller read/search/bash output.\n")).take 255)).take

/-- A round returns from the turn, or another round follows. -/
inductive Outcome where
  | returned (rc : Nat) (tr : Transcript)
  | goOn (tr : Transcript)

/-- The end of a round: the result of the tools. -/
def finishTool (cfg : AgentConfig) (v : Vocab) (sys : List Int) (tr : Transcript) (result : Bytes)
    (ci : CompactIn) : Outcome :=
  let fits (tr : Transcript) (result : Bytes) (reserve : Int) :=
    agentToolResultFitsContext cfg v tr result reserve
  if fits tr result AGENT_TOOL_RESULT_RESERVE_TOKENS then .goOn (chatAppendMessage v tr .tool result)
  else
    match agentWorkerCompact cfg v sys tr (lit "tool result would exceed context") ci with
    | none    => .returned 1 tr
    | some tr =>
      if fits tr result AGENT_TOOL_RESULT_RESERVE_TOKENS then .goOn (chatAppendMessage v tr .tool result)
      else
        let unfit := unfitResult cfg (chatAppendMessage v tr .tool result).length
        if fits tr unfit 16 then .goOn (chatAppendMessage v tr .tool unfit) else .returned 1 tr

/-- The part of a round behind the decode loop. -/
def finishRound (cfg : AgentConfig) (v : Vocab) (sys : List Int) (r : RoundIn) (tr : Transcript)
    (gotTool malformedTool : Bool) : Outcome :=
  -- a block that was opened inside thinking makes the call a malformed one
  let gotTool := gotTool && !r.dsmlInThink
  let malformedTool := malformedTool || r.dsmlInThink
  let error := if r.dsmlInThink then lit "tool calling is not allowed inside <think></think>"
    else r.dsmlError
  let tr := tr ++ [⟨v.eosId, .eos (gotTool || malformedTool)⟩]
  if !gotTool && !malformedTool then .returned 0 tr
  else if r.queued then .returned 0 (chatAppendMessage v tr .tool (queuedResult malformedTool error))
  else
    let result := if malformedTool then (malformedResult error).take else r.toolResult
    finishTool cfg v sys tr result r.toolCompact

/-- The part of a round behind the compaction. -/
def answerRound (cfg : AgentConfig) (v : Vocab) (sys : List Int) (r : RoundIn) (tr : Transcript) :
    Outcome :=
  let tr := chatAppendAssistantPrefix v tr cfg.think
  if r.sync then
    match decodeLoop v (maxTokens cfg r.pos) r.samples tr with
    | .failed tr                      => .returned 1 tr
    | .ended tr gotTool malformedTool => finishRound cfg v sys r tr gotTool malformedTool
  else .returned 1 tr

/-- The compaction before a round, which the first round does not have. -/
def roundStart (cfg : AgentConfig) (v : Vocab) (sys : List Int) (first : Bool) (r : RoundIn)
    (tr : Transcript) : Option Transcript :=
  if first then some tr
  else agentWorkerCompactIfNeeded cfg v sys tr (lit "soft limit before tool continuation") r.compact

/-- A round. -/
def round (cfg : AgentConfig) (v : Vocab) (sys : List Int) (first : Bool) (r : RoundIn) (tr : Transcript) :
    Outcome :=
  match roundStart cfg v sys first r tr with
  | none    => .returned 1 tr
  | some tr => answerRound cfg v sys r tr

/-- The rounds of a turn; there is no result while the turn goes on. -/
def roundsLoop (cfg : AgentConfig) (v : Vocab) (sys : List Int) :
    Bool → List RoundIn → Transcript → Option (Nat × Transcript)
  | _, [], _           => none
  | first, r :: rs, tr =>
    match round cfg v sys first r tr with
    | .returned rc tr => some (rc, tr)
    | .goOn tr        => roundsLoop cfg v sys false rs tr

/-- What happens in a turn. -/
structure TurnIn where
  userText : Bytes
  compact  : CompactIn
  rounds   : List RoundIn
deriving DecidableEq, Repr

/-- `worker_run_turn` -/
def workerRunTurn (cfg : AgentConfig) (v : Vocab) (sys : List Int) (t : TurnIn) (tr : Transcript) :
    Option (Nat × Transcript) :=
  match agentWorkerCompactIfNeeded cfg v sys tr (lit "soft limit before user turn") t.compact with
  | none    => some (1, tr)
  | some tr => roundsLoop cfg v sys true t.rounds (chatAppendMessage v tr .user t.userText)

/-- Turns, one after another; there is no result when one of them does not return. -/
def turns (cfg : AgentConfig) (v : Vocab) (sys : List Int) : List TurnIn → Transcript → Option Transcript
  | [], tr      => some tr
  | t :: ts, tr => (workerRunTurn cfg v sys t tr).bind fun r => turns cfg v sys ts r.2

/-! ### Clean turns -/

/-- The last tokens of the transcript, as many as a compaction keeps at most. -/
def lastToks (cfg : AgentConfig) (sys : List Int) (tr : Transcript) : Transcript :=
  tr.drop (max ((tr.length : Int) - tailBudget cfg) sys.length).toNat

/-- The first user marker among these tokens begins a message; where there is none, the first of the tokens
    does. -/
def TailAtMessage (cfg : AgentConfig) (v : Vocab) (sys : List Int) (tr : Transcript) : Prop :=
  match (lastToks cfg sys tr).find? fun t => t.id = v.userId with
  | some t => t.part.begins
  | none   => (lastToks cfg sys tr).head?.all fun t => t.part.begins

/-- A compaction that takes place keeps a tail that begins with a message. -/
def CompactClean (cfg : AgentConfig) (v : Vocab) (sys : List Int) (tr : Transcript) (reason : Bytes)
    (ci : CompactIn) : Prop :=
  sys.length < tr.length → (compactSummary cfg v tr reason ci).isSome → ci.resync →
    TailAtMessage cfg v sys tr

/-- Every token that is sampled is evaluated. -/
def EvalsOk (v : Vocab) : Nat → List SampleIn → Prop
  | n + 1, s :: ss => s.token ≠ v.eosId → s.evalOk ∧ (s.dsml = .search → EvalsOk v n ss)
  | _, _           => True

/-- The result of the tools fits, or a compaction takes place and the result fits then, or the message that
    it does not, or there is a report about running jobs. -/
def ToolClean (cfg : AgentConfig) (v : Vocab) (sys : List Int) (tr : Transcript) (result : Bytes)
    (ci : CompactIn) : Prop :=
  agentToolResultFitsContext cfg v tr result AGENT_TOOL_RESULT_RESERVE_TOKENS ∨
    (sys.length < tr.length ∧
      (compactSummary cfg v tr (lit "tool result would exceed context") ci).isSome ∧ ci.resync ∧
      TailAtMessage cfg v sys tr ∧
      (ci.bashUpdate ≠ none ∨
        ∀ tr', agentWorkerCompact cfg v sys tr (lit "tool result would exceed context") ci = some tr' →
          agentToolResultFitsContext cfg v tr' result AGENT_TOOL_RESULT_RESERVE_TOKENS ∨
          agentToolResultFitsContext cfg v tr'
            (unfitResult cfg (chatAppendMessage v tr' .tool result).length) 16))

/-- The session takes the prefix, every sample is evaluated, and a call gets its result. -/
def AnswerClean (cfg : AgentConfig) (v : Vocab) (sys : List Int) (r : RoundIn) (tr : Transcript) : Prop :=
  r.sync ∧ EvalsOk v (maxTokens cfg r.pos) r.samples ∧
    ∀ tr' gotTool malformedTool,
      decodeLoop v (maxTokens cfg r.pos) r.samples (chatAppendAssistantPrefix v tr cfg.think) =
        .ended tr' gotTool malformedTool →
      gotTool ∨ malformedTool ∨ r.dsmlInThink → ¬ r.queued →
      ToolClean cfg v sys (tr' ++ [⟨v.eosId, .eos true⟩])
        (if malformedTool || r.dsmlInThink then
          (malformedResult (if r.dsmlInThink then
            lit "tool calling is not allowed inside <think></think>" else r.dsmlError)).take
          else r.toolResult) r.toolCompact

/-- Nothing fails in the round while a message is open. -/
def RoundClean (cfg : AgentConfig) (v : Vocab) (sys : List Int) (first : Bool) (r : RoundIn)
    (tr : Transcript) : Prop :=
  (¬ first → agentWorkerShouldCompact cfg tr →
    CompactClean cfg v sys tr (lit "soft limit before tool continuation") r.compact) ∧
  ∀ tr', roundStart cfg v sys first r tr = some tr' → AnswerClean cfg v sys r tr'

def RoundsClean (cfg : AgentConfig) (v : Vocab) (sys : List Int) :
    Bool → List RoundIn → Transcript → Prop
  | _, [], _           => True
  | first, r :: rs, tr =>
    RoundClean cfg v sys first r tr ∧
      ∀ tr', round cfg v sys first r tr = .goOn tr' → RoundsClean cfg v sys false rs tr'

/-- **A clean turn.** -/
def TurnClean (cfg : AgentConfig) (v : Vocab) (sys : List Int) (t : TurnIn) (tr : Transcript) : Prop :=
  (agentWorkerShouldCompact cfg tr →
    CompactClean cfg v sys tr (lit "soft limit before user turn") t.compact) ∧
  ∀ tr', agentWorkerCompactIfNeeded cfg v sys tr (lit "soft limit before user turn") t.compact = some tr' →
    RoundsClean cfg v sys true t.rounds (chatAppendMessage v tr' .user t.userText)

def TurnsClean (cfg : AgentConfig) (v : Vocab) (sys : List Int) : List TurnIn → Transcript → Prop
  | [], _       => True
  | t :: ts, tr =>
    TurnClean cfg v sys t tr ∧
      ∀ r, workerRunTurn cfg v sys t tr = some r → TurnsClean cfg v sys ts r.2

/-! ### Compactions -/

variable {cfg : AgentConfig} {v : Vocab} {sys : List Int} {tr tr' : Transcript} {p : Place}
  {reason : Bytes} {ci : CompactIn} {tokens merges : List Bytes}

/-- The marker of a user message is one token. -/
theorem agentSpecialTokenId_user (v : Vocab) : agentSpecialTokenId v USER = v.userId := by
  have hspecial : specialTokenAt v USER = some (v.userId, USER.length) := by
    have h₁ : ¬ BOS <+: USER := by decide +kernel
    have h₂ : ¬ EOS <+: USER := by decide +kernel
    simp [specialTokenAt, specials, h₁, h₂]
  have hcstr : cstr USER = USER := by decide +kernel
  obtain ⟨c, p, hcp⟩ : ∃ c p, USER = c :: p := ⟨_, _, rfl⟩
  unfold agentSpecialTokenId tokenizeRenderedChatVocab
  rw [hcstr]
  have hloop : chatLoop v USER.length [] USER = [v.userId] := by
    rw [hcp] at hspecial ⊢
    rw [List.length_cons]
    unfold chatLoop
    rw [hspecial]
    dsimp only
    rw [List.drop_length]
    cases p.length <;> simp [chatLoop, tokenizeSpan]
  rw [hloop]

/-- What is behind the first element that is looked for. -/
theorem drop_findIdx? {α : Type*} (f : α → Bool) (l : List α) :
    match l.findIdx? f with
    | some i => ∃ t r, l.drop i = t :: r ∧ l.find? f = some t
    | none   => l.find? f = none := by
  induction l with
  | nil => rfl
  | cons a l ih =>
    by_cases ha : f a
    · simp [List.findIdx?_cons, ha]
    · simp only [List.findIdx?_cons, ha, List.find?_cons]
      cases hf : l.findIdx? f with
      | none =>
        rw [hf] at ih
        simpa using ih
      | some i =>
        rw [hf] at ih
        simpa using ih

/-- **The tail** that a compaction keeps begins with a message. -/
theorem tail_begins (h : vocabLoad tokens merges = some v) (hlen : sys.length < tr.length)
    (htail : TailAtMessage cfg v sys tr) :
    ∃ t tail, tr.drop (agentCompactTailStart cfg v tr sys.length) = t :: tail ∧ t.part.begins := by
  have huser : ¬ v.userId < 0 := by
    obtain ⟨-, -, -, -, -, -, hu, -⟩ := vocabLoad_eq h
    have := (token_of_lookup h hu).1
    omega
  have hbudget : 1 ≤ tailBudget cfg := by
    unfold tailBudget
    omega
  unfold TailAtMessage lastToks at htail
  unfold agentCompactTailStart
  dsimp only
  rw [agentSpecialTokenId_user, if_neg huser]
  have hfind := drop_findIdx? (fun t : Tok => t.id = v.userId)
    (tr.drop (max ((tr.length : Int) - tailBudget cfg) sys.length).toNat)
  cases hidx : (tr.drop (max ((tr.length : Int) - tailBudget cfg) sys.length).toNat).findIdx?
      fun t => t.id = v.userId with
  | some i =>
    rw [hidx] at hfind
    obtain ⟨t, tail, hdrop, hsome⟩ := hfind
    rw [hsome] at htail
    rw [List.drop_drop] at hdrop
    exact ⟨t, tail, hdrop, htail⟩
  | none =>
    rw [hidx] at hfind
    dsimp only at hfind
    rw [hfind] at htail
    -- the tokens are some, since at least one is kept
    cases hdrop : tr.drop (max ((tr.length : Int) - tailBudget cfg) sys.length).toNat with
    | nil =>
      rw [List.drop_eq_nil_iff] at hdrop
      omega
    | cons t tail =>
      rw [hdrop] at htail
      exact ⟨t, tail, rfl, htail⟩

theorem scan_systemToks (v : Vocab) (sys : List Int) : At v (systemToks sys) .system := by
  unfold systemToks At
  induction sys with
  | nil => rfl
  | cons id sys ih => exact ih

/-- A tail begins at some place of the transcript. -/
theorem At.drop (h : At v tr p) (k : Nat) : ∃ q, scan v q (tr.drop k) = some p := by
  have hsplit := scan_append (v := v) .system (tr.take k) (tr.drop k)
  rw [List.take_append_drop] at hsplit
  unfold At at h
  rw [h] at hsplit
  cases hq : scan v .system (tr.take k) with
  | none =>
    rw [hq] at hsplit
    cases hsplit
  | some q =>
    rw [hq] at hsplit
    exact ⟨q, hsplit.symm⟩

/-- **A compacted transcript** stands where the transcript stood. -/
theorem At.compacted (h : vocabLoad tokens merges = some v) (hat : At v tr p)
    (hlen : sys.length < tr.length) (htail : TailAtMessage cfg v sys tr) (summary : Bytes) :
    At v (compacted cfg v sys tr summary) p := by
  obtain ⟨t, tail, hdrop, hbegins⟩ := tail_begins h hlen htail
  obtain ⟨q, hq⟩ := hat.drop (agentCompactTailStart cfg v tr sys.length)
  have hsystem : At v (chatAppendMessage v (systemToks sys) .system (summaryMessage summary)) .system :=
    (scan_systemToks v sys).append (scan_system _)
  apply hsystem.append
  rw [hdrop] at hq ⊢
  exact scan_tail hq hbegins

theorem agentWorkerCompact_eq (hc : agentWorkerCompact cfg v sys tr reason ci = some tr') :
    tr' = tr ∧ tr.length ≤ sys.length ∨
    sys.length < tr.length ∧ (compactSummary cfg v tr reason ci).isSome ∧ ci.resync ∧
      ∃ summary, tr' = compacted cfg v sys tr summary ∧ ci.bashUpdate = none ∨
        ∃ update, ci.bashUpdate = some update ∧
          tr' = chatAppendMessage v (compacted cfg v sys tr summary) .tool update := by
  unfold agentWorkerCompact at hc
  split at hc
  · rename_i hle
    exact Or.inl ⟨(Option.some.inj hc).symm, hle⟩
  · rename_i hgt
    cases hs : compactSummary cfg v tr reason ci with
    | none =>
      rw [hs] at hc
      cases hc
    | some summary =>
      rw [hs] at hc
      dsimp only at hc
      split at hc
      · rename_i hresync
        refine Or.inr ⟨Nat.not_le.mp hgt, rfl, hresync, summary, ?_⟩
        cases hb : ci.bashUpdate with
        | none =>
          rw [hb] at hc
          exact Or.inl ⟨(Option.some.inj hc).symm, rfl⟩
        | some update =>
          rw [hb] at hc
          exact Or.inr ⟨update, rfl, (Option.some.inj hc).symm⟩
      · cases hc

/-- **A compaction** leaves the transcript at its place, or behind a report about running jobs. -/
theorem At.compact (h : vocabLoad tokens merges = some v) (hat : At v tr p)
    (hp : p.settled ∨ p = .owed) (hclean : CompactClean cfg v sys tr reason ci)
    (hc : agentWorkerCompact cfg v sys tr reason ci = some tr') : At v tr' p ∨ At v tr' .text := by
  rcases agentWorkerCompact_eq hc with ⟨rfl, -⟩ | ⟨hlen, hsome, hresync, summary, h'⟩
  · exact Or.inl hat
  · have hcomp := hat.compacted h hlen (hclean hlen hsome hresync) summary
    rcases h' with ⟨rfl, -⟩ | ⟨update, -, rfl⟩
    · exact Or.inl hcomp
    · exact Or.inr (hcomp.tool hp update)

theorem complete_compactIfNeeded (h : vocabLoad tokens merges = some v) (hcomplete : Complete v tr)
    (hclean : agentWorkerShouldCompact cfg tr → CompactClean cfg v sys tr reason ci)
    (hc : agentWorkerCompactIfNeeded cfg v sys tr reason ci = some tr') : Complete v tr' := by
  obtain ⟨p, hat, hp⟩ := hcomplete
  unfold agentWorkerCompactIfNeeded at hc
  split at hc
  · rename_i hdue
    rcases hat.compact h (Or.inl hp) (hclean hdue) hc with hat' | hat'
    · exact ⟨p, hat', hp⟩
    · exact ⟨.text, hat', rfl⟩
  · rw [Option.some.injEq] at hc
    exact hc ▸ ⟨p, hat, hp⟩

/-! ### Answers -/

/-- What is known where a round ends: the transcript is complete. -/
def Outcome.Complete (v : Vocab) : Outcome → Prop
  | .returned _ tr => Agent.Complete v tr
  | .goOn tr       => Agent.Complete v tr

/-- **The samples** of an answer leave it open, and no evaluation fails. -/
theorem decodeLoop_answer (v : Vocab) :
    ∀ (n : Nat) (ss : List SampleIn) (tr : Transcript), At v tr .answer → EvalsOk v n ss →
      ∃ tr' gotTool malformedTool, decodeLoop v n ss tr = .ended tr' gotTool malformedTool ∧
        At v tr' .answer := by
  intro n
  induction n with
  | zero => exact fun ss tr hat _ => ⟨tr, false, false, rfl, hat⟩
  | succ n ih =>
    intro ss tr hat hevals
    cases ss with
    | nil => exact ⟨tr, false, false, rfl, hat⟩
    | cons s ss =>
      unfold decodeLoop
      unfold EvalsOk at hevals
      by_cases heos : s.token = v.eosId
      · rw [if_pos heos]
        exact ⟨tr, false, false, rfl, hat⟩
      · obtain ⟨hok, hrest⟩ := hevals heos
        have hat' := hat.sampled heos
        rw [if_neg heos, if_pos hok]
        dsimp only
        cases hd : s.dsml with
        | done   => exact ⟨_, true, false, rfl, hat'⟩
        | error  => exact ⟨_, false, true, rfl, hat'⟩
        | search => exact ih ss _ hat' (hrest hd)

/-- **The result of the tools** settles the call. -/
theorem finishTool_complete (h : vocabLoad tokens merges = some v) (hat : At v tr .owed)
    (result : Bytes) (hclean : ToolClean cfg v sys tr result ci) :
    (finishTool cfg v sys tr result ci).Complete v := by
  have htool : ∀ {tr : Transcript} {p : Place} (result : Bytes), At v tr p → p.settled ∨ p = .owed →
      Agent.Complete v (chatAppendMessage v tr .tool result) :=
    fun result hat hp => ⟨.text, hat.tool hp result, rfl⟩
  unfold finishTool
  dsimp only
  split
  · exact htool result hat (Or.inr rfl)
  · rename_i hfit
    obtain ⟨hlen, hsome, hresync, htail, hroom⟩ := hclean.resolve_left hfit
    cases hc : agentWorkerCompact cfg v sys tr (lit "tool result would exceed context") ci with
    | none =>
      -- the compaction takes place
      unfold agentWorkerCompact at hc
      obtain ⟨summary, hs⟩ := Option.isSome_iff_exists.mp hsome
      rw [if_neg (Nat.not_le.mpr hlen), hs] at hc
      dsimp only at hc
      rw [if_pos hresync] at hc
      split at hc <;> cases hc
    | some tr' =>
      dsimp only
      have hat' := hat.compact h (Or.inr rfl) (fun _ _ _ => htail) hc
      have happend : ∀ result, Agent.Complete v (chatAppendMessage v tr' .tool result) := by
        intro result
        rcases hat' with hat' | hat'
        · exact htool result hat' (Or.inr rfl)
        · exact htool result hat' (Or.inl rfl)
      split
      · exact happend result
      · rename_i hfit'
        split
        · exact happend _
        · rename_i hunfit
          -- only the report about running jobs is left to settle the call
          rcases hroom with hbash | hroom
          · rcases agentWorkerCompact_eq hc with ⟨-, hle⟩ | ⟨-, -, -, summary, h'⟩
            · omega
            · rcases h' with ⟨-, hnone⟩ | ⟨update, -, rfl⟩
              · exact absurd hnone hbash
              · exact ⟨.text, (hat.compacted h hlen htail summary).tool (Or.inr rfl) update, rfl⟩
          · rcases hroom tr' hc with hfits | hfits
            · exact absurd hfits hfit'
            · exact absurd hfits hunfit

/-- **An answer** of a clean round ends with a complete transcript. -/
theorem answerRound_complete (h : vocabLoad tokens merges = some v) {r : RoundIn}
    (hcomplete : Agent.Complete v tr) (hclean : AnswerClean cfg v sys r tr) :
    (answerRound cfg v sys r tr).Complete v := by
  obtain ⟨p, hat, hp⟩ := hcomplete
  obtain ⟨hsync, hevals, htool⟩ := hclean
  obtain ⟨tr', gotTool, malformedTool, hdec, hat'⟩ :=
    decodeLoop_answer v _ r.samples _ (hat.header hp cfg.think) hevals
  have htool := htool tr' gotTool malformedTool hdec
  unfold answerRound
  dsimp only
  rw [if_pos hsync, hdec]
  dsimp only
  unfold finishRound
  dsimp only
  by_cases hcall : gotTool ∨ malformedTool ∨ r.dsmlInThink
  · have heos : (gotTool && !r.dsmlInThink || (malformedTool || r.dsmlInThink)) = true := by
      rcases hcall with hg | hm | hd
      · by_cases hd : r.dsmlInThink <;> simp [hg, hd]
      · simp [hm]
      · simp [hd]
    have howed : At v (tr' ++ [⟨v.eosId, .eos true⟩]) .owed := hat'.eos true
    have hnot : ¬ (!(gotTool && !r.dsmlInThink) && !(malformedTool || r.dsmlInThink)) = true := by
      rw [← Bool.not_or, heos]
      exact Bool.false_ne_true
    rw [heos, if_neg hnot]
    split
    · exact ⟨.text, howed.tool (Or.inr rfl) _, rfl⟩
    · rename_i hqueued
      exact finishTool_complete h howed _ (htool hcall hqueued)
  · -- the answer calls no tool
    simp only [not_or, Bool.not_eq_true] at hcall
    obtain ⟨hg, hm, hd⟩ := hcall
    simp only [hg, hm, hd]
    exact ⟨.idle, hat'.eos false, rfl⟩

/-! ### Turns -/

theorem round_complete (h : vocabLoad tokens merges = some v) {first : Bool} {r : RoundIn}
    (hcomplete : Agent.Complete v tr) (hclean : RoundClean cfg v sys first r tr) :
    (round cfg v sys first r tr).Complete v := by
  unfold round
  cases hs : roundStart cfg v sys first r tr with
  | none => exact hcomplete
  | some tr' =>
    apply answerRound_complete h _ (hclean.2 tr' hs)
    unfold roundStart at hs
    split at hs
    · exact Option.some.inj hs ▸ hcomplete
    · rename_i hfirst
      exact complete_compactIfNeeded h hcomplete (hclean.1 hfirst) hs

theorem roundsLoop_complete (h : vocabLoad tokens merges = some v) (rs : List RoundIn) :
    ∀ (first : Bool) (tr : Transcript) (r : Nat × Transcript), Agent.Complete v tr →
      RoundsClean cfg v sys first rs tr → roundsLoop cfg v sys first rs tr = some r →
      Agent.Complete v r.2 := by
  induction rs with
  | nil =>
    intro first tr r _ _ hr
    cases hr
  | cons r rs ih =>
    intro first tr res hcomplete hclean hr
    have hround := round_complete h hcomplete hclean.1
    unfold roundsLoop at hr
    cases hout : round cfg v sys first r tr with
    | returned rc tr' =>
      rw [hout] at hr hround
      rw [← Option.some.inj hr]
      exact hround
    | goOn tr' =>
      rw [hout] at hr hround
      exact ih false tr' res hround (hclean.2 tr' hout) hr

/-- **One turn.** -/
theorem workerRunTurn_complete (h : vocabLoad tokens merges = some v) {t : TurnIn} {r : Nat × Transcript}
    (hcomplete : Agent.Complete v tr) (hclean : TurnClean cfg v sys t tr)
    (hr : workerRunTurn cfg v sys t tr = some r) : Agent.Complete v r.2 := by
  unfold workerRunTurn at hr
  cases hc : agentWorkerCompactIfNeeded cfg v sys tr (lit "soft limit before user turn") t.compact with
  | none =>
    rw [hc] at hr
    rw [← Option.some.inj hr]
    exact hcomplete
  | some tr' =>
    rw [hc] at hr
    obtain ⟨p, hat, hp⟩ := complete_compactIfNeeded h hcomplete hclean.1 hc
    exact roundsLoop_complete h t.rounds true _ r ⟨.text, hat.user hp t.userText, rfl⟩
      (hclean.2 tr' hc) hr

/-- **Every sequence of clean turns** leaves complete messages, from any transcript that is complete: every
    answer has its prefix, its samples and one end token before the next message, and every answer that
    calls a tool, or tries to, has a result. -/
theorem turns_complete (h : vocabLoad tokens merges = some v) (ts : List TurnIn)
    (hcomplete : Complete v tr) (hclean : TurnsClean cfg v sys ts tr)
    (hr : turns cfg v sys ts tr = some tr') : Complete v tr' := by
  induction ts generalizing tr with
  | nil => exact Option.some.inj hr ▸ hcomplete
  | cons t ts ih =>
    unfold turns at hr
    obtain ⟨r, hturn, hrest⟩ := Option.bind_eq_some_iff.mp hr
    exact ih (workerRunTurn_complete h hcomplete hclean.1 hturn) (hclean.2 r hturn) hrest

/-! ### Two turns -/

def sampleConfig : AgentConfig := { ctxSize := 100000, nPredict := 1000, think := true }

/-- A compaction that fails. -/
def noCompact : CompactIn := { sync := false, summary := [], resync := false, bashUpdate := none }

/-- A turn of one round, in which the session takes the prompt or does not, and the user interrupts. -/
def sampleTurn (sync : Bool) : TurnIn :=
  { userText := lit "hi", compact := noCompact,
    rounds := [{ compact := noCompact, sync := sync, pos := 10, samples := [], dsmlInThink := false,
                 dsmlError := [], queued := false, toolResult := [], toolCompact := noCompact }] }

theorem turns_complete_sample : ∃ v, vocabLoad sampleTokens sampleMerges = some v ∧ ∃ tr,
    turns sampleConfig v [] [sampleTurn true] (systemToks []) = some tr ∧ Complete v tr := by
  obtain ⟨v, hv⟩ := exists_vocabLoad_sample
  have hclean : TurnsClean sampleConfig v [] [sampleTurn true] (systemToks []) := by
    refine ⟨⟨fun hdue => absurd hdue (by decide), fun tr' _ => ?_⟩, fun r _ => trivial⟩
    refine ⟨⟨fun hfirst => absurd rfl hfirst, fun tr₁ _ => ⟨rfl, trivial, ?_⟩⟩, fun tr₁ _ => trivial⟩
    -- there is no call
    intro tr₂ gotTool malformedTool hdec hcall
    obtain ⟨-, rfl, rfl⟩ : _ ∧ false = gotTool ∧ false = malformedTool := Decoded.ended.inj hdec
    exact absurd hcall (by decide)
  have hstart : Complete v (systemToks []) := ⟨.system, scan_systemToks v [], rfl⟩
  exact ⟨v, hv, _, rfl, turns_complete hv _ hstart hclean rfl⟩

/-- **A session that does not take the prompt** leaves the prefix of an answer without an end. -/
theorem not_complete_failedSync : ∃ v, vocabLoad sampleTokens sampleMerges = some v ∧ ∃ tr,
    turns sampleConfig v [] [sampleTurn false] (systemToks []) = some tr ∧ ¬ Complete v tr := by
  obtain ⟨v, hv⟩ := exists_vocabLoad_sample
  refine ⟨v, hv, _, rfl, ?_⟩
  have hsystem : At v (systemToks []) .system := rfl
  exact ((hsystem.user rfl (lit "hi")).header rfl true).not_complete rfl

end DS4.Agent
