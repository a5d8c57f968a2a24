import Mathlib.Data.Option.Basic
import DS4.Lib.Run
import DS4.Server.LiveState

namespace DS4.Server

/-!
# Server — `generate_job` and the soundness of the live bindings

One job picks a prompt to continue (from a live binding, from the tokens or the text of the live
session, from the disk cache, or from nothing), brings the session to it, decodes, and remembers
or clears the live bindings.  Every step of the environment (what the disk holds, which sync
fails and how far it got, what is generated) is a field of the job.

* `runJob` — one job as a step on `ServerState`.
* `FailsInPlace`, `rebuilds` — a prefill that fails without having moved the checkpoint; the
  branch of `canonicalize_tool_checkpoint` that replaces the session.
* `bindings_sound_of_run` — **binding soundness** along every run whose jobs fail in place (or
  while nothing is bound) and do not rebuild the session of an Anthropic turn.
* `failed_prefill_keeps_stale_binding` — a run in which a failed prefill leaves a binding over
  another history.
-/

/-! ### Requests and jobs -/

/-- What a job uses of the engine. -/
structure Engine where
  /-- `ds4_session_ctx` -/
  ctx : Nat
  /-- `ds4_tokenize_rendered_chat` -/
  tokenize : Bytes → List Nat
  /-- `ds4_token_text` -/
  tokenText : Nat → Bytes

/-- The part of a `request` that the continuation of a session depends on. -/
structure Request where
  kind : ReqKind
  api : Api
  prompt : List Nat
  promptText : Option Bytes
  /-- `ds4_think_mode_enabled(think_mode)` -/
  thinking : Bool
  hasTools : Bool
  promptPreservesReasoning : Bool
  responsesLiveSuffixText : Option Bytes
  responsesLiveCallIds : List Bytes
  responsesRequiresLiveToolState : Bool
  anthropicLiveSuffixText : Option Bytes
  anthropicLiveCallIds : List Bytes
  anthropicRequiresLiveToolState : Bool

/-- What `kv_cache_try_load_text` finds: nothing usable (the session is left alone), a payload
    that fails to load (the session is invalidated), or a payload for the first `textBytes`
    bytes of the prompt text. -/
inductive DiskLookup where
  | miss
  | failed
  | hit (tokens : List Nat) (textBytes : Nat)
  deriving DecidableEq

/-- A request and all that the environment decides while it is executed. -/
structure Job where
  req : Request
  disk : DiskLookup
  /-- `cold_store_len` -/
  coldLen : Nat
  coldIo : SyncIo
  syncIo : SyncIo
  /-- the writes that open the stream succeed, if there are any -/
  streamOk : Bool
  /-- the tokens the decode loop adds to the session -/
  generated : List Nat
  /-- a stop sequence is hit: the loop invalidates the session -/
  stopCut : Bool
  evalFailed : Bool
  finish : Finish
  thinkingInside : Bool
  content : Bytes
  /-- the ids of the parsed tool calls -/
  calls : List Bytes
  /-- `calls->raw_dsml` is not empty -/
  rawDsml : Bool
  /-- `build_responses_visible_assistant_suffix` -/
  visibleSuffix : Bytes
  /-- `build_tool_checkpoint_suffix` -/
  checkpointSuffix : Bytes
  rewriteIo : SyncIo
  rebuildDisk : DiskLookup
  rebuildIo : SyncIo

/-- The session and the three live states. -/
structure ServerState where
  session : Session
  responsesLive : Binding
  anthropicLive : Binding
  thinkingLive : Binding
  disableExactDsmlToolReplay : Bool

/-- A server that has just started. -/
def ServerState.init (disableReplay : Bool) : ServerState :=
  ⟨⟨[], false⟩, Binding.clear, Binding.clear, Binding.clear, disableReplay⟩

/-! ### The prompt to continue -/

/-- `cache_source`, for the sources that use the live session. -/
inductive Source where
  | responsesVisible
  | responsesToolOutput
  | anthropicToolOutput
  | memoryToken
  | thinkingVisible
  | memoryText
  deriving DecidableEq

section prompt

variable (eng : Engine) (sv : ServerState) (req : Request)

/-- `build_prompt_from_exact_prefix_and_text_suffix` -/
def buildPrompt (exactPrefix : List Nat) (suffix : Bytes) : List Nat :=
  exactPrefix ++ eng.tokenize suffix

/-- `responses_live_visible_prefix_prompt` -/
def responsesLiveVisiblePrefixPrompt : Option (List Nat) :=
  match req.promptText with
  | some text =>
    if req.api = .responses then
      (sv.responsesLive.visiblePrefix sv.session text).map fun visible =>
        buildPrompt eng sv.session.tokens (text.drop visible.length)
    else none
  | none => none

/-- `responses_live_continuation_prompt` -/
def responsesLiveContinuationPrompt : Option (List Nat) :=
  match req.responsesLiveSuffixText with
  | some suffix =>
    if req.api = .responses ∧
        sv.responsesLive.matchesRequest sv.session req.responsesLiveCallIds = true then
      some (buildPrompt eng sv.session.tokens suffix)
    else none
  | none => none

/-- `anthropic_live_continuation_prompt` -/
def anthropicLiveContinuationPrompt : Option (List Nat) :=
  match req.anthropicLiveSuffixText with
  | some suffix =>
    if req.api = .anthropic ∧
        sv.anthropicLive.matchesRequest sv.session req.anthropicLiveCallIds = true then
      some (buildPrompt eng sv.session.tokens suffix)
    else none
  | none => none

/-- The exact token-prefix hit. -/
def memoryTokenPrompt : Option (List Nat) :=
  if sv.session.commonPrefix req.prompt = sv.session.pos ∧ sv.session.pos ≤ req.prompt.length then
    some req.prompt
  else none

/-- `thinking_live_visible_prefix_prompt` -/
def thinkingLiveVisiblePrefixPrompt : Option (List Nat) :=
  match req.promptText with
  | some text =>
    if req.kind = .chat ∧ req.api ≠ .responses then
      (sv.thinkingLive.visiblePrefix sv.session text).map fun visible =>
        buildPrompt eng sv.session.tokens (text.drop visible.length)
    else none
  | none => none

/-- `live_text_prefix_prompt` -/
def liveTextPrefixPrompt : Option (List Nat) :=
  match req.promptText with
  | some text =>
    let liveText := sv.session.tokens.flatMap eng.tokenText
    if liveText.isPrefixOf text then
      some (buildPrompt eng sv.session.tokens (text.drop liveText.length))
    else none
  | none => none

/-- The continuations bound to a protocol, in the order they are tried. -/
def livePrompt : Option (Source × List Nat) :=
  if sv.session.tokens = [] then none
  else
    (responsesLiveVisiblePrefixPrompt eng sv req).map (.responsesVisible, ·) <|>
      (responsesLiveContinuationPrompt eng sv req).map (.responsesToolOutput, ·) <|>
      (anthropicLiveContinuationPrompt eng sv req).map (.anthropicToolOutput, ·)

/-- The request needs a live tool state and there is none: a 409. -/
def rejected : Bool :=
  (livePrompt eng sv req).isNone &&
    ((req.api = .responses && req.responsesRequiresLiveToolState) ||
      (req.api = .anthropic && req.anthropicRequiresLiveToolState))

/-- The prompt that continues the live session, if there is one. -/
def cachedPrompt : Option (Source × List Nat) :=
  livePrompt eng sv req <|>
    (if sv.session.tokens = [] then none
      else
        (memoryTokenPrompt sv req).map (.memoryToken, ·) <|>
          (thinkingLiveVisiblePrefixPrompt eng sv req).map (.thinkingVisible, ·) <|>
          (liveTextPrefixPrompt eng sv req).map (.memoryText, ·))

/-- The binding that a source continues is live, and of the protocol of the request. -/
def Source.Bound (src : Source) : Prop :=
  (src = .responsesVisible ∨ src = .responsesToolOutput →
      req.api = .responses ∧ sv.responsesLive.isLive sv.session = true) ∧
    (src = .anthropicToolOutput →
      req.api = .anthropic ∧ sv.anthropicLive.isLive sv.session = true) ∧
    (src = .thinkingVisible → sv.thinkingLive.isLive sv.session = true)

variable {eng sv req}

theorem livePrompt_spec {src : Source} {prompt : List Nat}
    (h : livePrompt eng sv req = some (src, prompt)) :
    sv.session.tokens ≠ [] ∧ sv.session.tokens <+: prompt ∧ src.Bound sv req := by
  unfold livePrompt at h
  split at h
  · exact absurd h (by simp)
  rename_i hne
  refine ⟨hne, ?_⟩
  simp only [Option.orElse_eq_some, Option.map_eq_some_iff, Prod.mk.injEq] at h
  obtain ⟨p, hp, rfl, rfl⟩ | ⟨-, ⟨p, hp, rfl, rfl⟩ | ⟨-, p, hp, rfl, rfl⟩⟩ := h
  · unfold responsesLiveVisiblePrefixPrompt at hp
    split at hp
    · split at hp
      · rename_i hapi
        obtain ⟨visible, hvis, rfl⟩ := Option.map_eq_some_iff.mp hp
        exact ⟨List.prefix_append _ _,
          fun _ => ⟨hapi, Binding.isLive_of_visiblePrefix hvis⟩, by simp, by simp⟩
      · exact absurd hp (by simp)
    · exact absurd hp (by simp)
  · unfold responsesLiveContinuationPrompt at hp
    split at hp
    · split at hp
      · rename_i hc
        obtain rfl := Option.some.inj hp
        exact ⟨List.prefix_append _ _,
          fun _ => ⟨hc.1, Binding.isLive_of_matchesRequest hc.2⟩, by simp, by simp⟩
      · exact absurd hp (by simp)
    · exact absurd hp (by simp)
  · unfold anthropicLiveContinuationPrompt at hp
    split at hp
    · split at hp
      · rename_i hc
        obtain rfl := Option.some.inj hp
        exact ⟨List.prefix_append _ _, by simp,
          fun _ => ⟨hc.1, Binding.isLive_of_matchesRequest hc.2⟩, by simp⟩
      · exact absurd hp (by simp)
    · exact absurd hp (by simp)

/-- **Continuations.** A prompt that continues the live session extends its tokens, and a binding
    it continues is live. -/
theorem cachedPrompt_spec {src : Source} {prompt : List Nat}
    (h : cachedPrompt eng sv req = some (src, prompt)) :
    sv.session.tokens ≠ [] ∧ sv.session.tokens <+: prompt ∧ src.Bound sv req := by
  unfold cachedPrompt at h
  rw [Option.orElse_eq_some] at h
  obtain h | ⟨-, h⟩ := h
  · exact livePrompt_spec h
  split at h
  · exact absurd h (by simp)
  rename_i hne
  refine ⟨hne, ?_⟩
  simp only [Option.orElse_eq_some, Option.map_eq_some_iff, Prod.mk.injEq] at h
  obtain ⟨p, hp, rfl, rfl⟩ | ⟨-, ⟨p, hp, rfl, rfl⟩ | ⟨-, p, hp, rfl, rfl⟩⟩ := h
  · unfold memoryTokenPrompt at hp
    split at hp
    · rename_i hc
      obtain rfl := Option.some.inj hp
      refine ⟨?_, by simp, by simp, by simp⟩
      have hpos : sv.session.pos ≠ 0 := by simpa [Session.pos] using hne
      have hcommon := hc.1
      unfold Session.commonPrefix at hcommon
      split at hcommon
      · exact commonLen_eq_length hcommon
      · exact absurd hcommon.symm hpos
    · exact absurd hp (by simp)
  · unfold thinkingLiveVisiblePrefixPrompt at hp
    split at hp
    · split at hp
      · obtain ⟨visible, hvis, rfl⟩ := Option.map_eq_some_iff.mp hp
        exact ⟨List.prefix_append _ _, by simp, by simp,
          fun _ => Binding.isLive_of_visiblePrefix hvis⟩
      · exact absurd hp (by simp)
    · exact absurd hp (by simp)
  · unfold liveTextPrefixPrompt at hp
    split at hp
    · dsimp only at hp
      split at hp
      · obtain rfl := Option.some.inj hp
        exact ⟨List.prefix_append _ _, by simp, by simp, by simp⟩
      · exact absurd hp (by simp)
    · exact absurd hp (by simp)

end prompt

/-! ### The prefill -/

section job

variable (eng : Engine) (sv : ServerState) (job : Job)

/-- `kv_cache_try_load_text`: the session afterwards, and the prompt a hit continues. -/
def DiskLookup.load (disk : DiskLookup) (s : Session) (text : Bytes) :
    Session × Option (List Nat) :=
  match disk with
  | .miss           => (s, none)
  | .failed         => (Session.invalidate, none)
  | .hit tokens len =>
    (⟨tokens, true⟩,
      if tokens = [] then none else some (buildPrompt eng tokens (text.drop len)))

/-- The lookup before a prefill; without a prompt text there is none. -/
def diskPrompt : Session × Option (List Nat) :=
  match job.req.promptText with
  | some text => job.disk.load eng sv.session text
  | none      => (sv.session, none)

/-- The session and the prompt that the prefill starts from. -/
def prefillStart : Session × List Nat :=
  match cachedPrompt eng sv job.req with
  | some src => (sv.session, src.2)
  | none     => ((diskPrompt eng sv job).1, (diskPrompt eng sv job).2.getD job.req.prompt)

/-- A cold prompt is first brought to a shorter checkpoint, which is stored. -/
def coldRuns : Bool :=
  (cachedPrompt eng sv job.req).isNone && (diskPrompt eng sv job).2.isNone &&
    decide (0 < job.coldLen) && decide (job.coldLen < job.req.prompt.length)

/-- The syncs of the prefill; the flag is success. -/
def prefill : Session × Bool :=
  let start := prefillStart eng sv job
  if coldRuns eng sv job then
    let cold := start.1.sync eng.ctx (start.2.take job.coldLen) job.coldIo
    if cold.2 then cold.1.sync eng.ctx start.2 job.syncIo else cold
  else start.1.sync eng.ctx start.2 job.syncIo

/-- Which source the job continues. -/
def source : Option Source := (cachedPrompt eng sv job.req).map Prod.fst

/-- The clears after a successful prefill. -/
def clearStale (s : Session) : ServerState :=
  let src := source eng sv job
  { sv with
    session := s
    responsesLive :=
      if src = some .responsesVisible ∨ src = some .responsesToolOutput then sv.responsesLive
      else Binding.clear
    anthropicLive := if src = some .anthropicToolOutput then sv.anthropicLive else Binding.clear
    thinkingLive := if src = some .thinkingVisible then sv.thinkingLive else Binding.clear }

/-! ### After the decode loop -/

/-- The session after the decode loop. -/
def decoded (s : Session) : Session :=
  if job.stopCut then Session.invalidate else ⟨s.tokens ++ job.generated, !job.evalFailed⟩

/-- The parsed calls; only a chat is parsed. -/
def parsedCalls : List Bytes := if job.req.kind = .chat then job.calls else []

/-- `final_finish` -/
def finalFinish : Finish := if parsedCalls job = [] then job.finish else .toolCalls

/-- The finish is neither `error` nor `length`. -/
def finishedWell : Bool := finalFinish job ≠ .error && finalFinish job ≠ .length

/-- `responses_live` after the decode loop. -/
def responsesAfter : Binding :=
  if job.req.api = .responses then
    let b := if job.req.kind = .chat ∧ parsedCalls job = [] then Binding.clear
      else sv.responsesLive
    if finishedWell job then
      b.rememberResponses sv.session (job.req.promptText.getD [] ++ job.visibleSuffix)
        (parsedCalls job)
    else Binding.clear
  else sv.responsesLive

/-- `anthropic_live` after the decode loop. -/
def anthropicAfter : Binding :=
  if job.req.api = .anthropic then
    if parsedCalls job ≠ [] ∧ finishedWell job = true then
      sv.anthropicLive.rememberAnthropic sv.session (parsedCalls job)
    else Binding.clear
  else sv.anthropicLive

/-- `should_canonicalize_tool_checkpoint`, with the tests of its caller. -/
def canonicalizes : Bool :=
  parsedCalls job ≠ [] && job.req.api ≠ .responses &&
    (sv.disableExactDsmlToolReplay || !job.rawDsml)

/-- `should_remember_thinking_checkpoint` -/
def remembersThinking : Bool :=
  job.req.kind = .chat && !job.req.hasTools && !job.req.promptPreservesReasoning &&
    job.req.thinking && finishedWell job && !job.thinkingInside

/-- `build_toolless_thinking_visible_text` -/
def thinkingVisibleText : Option Bytes :=
  match job.req.promptText with
  | some text =>
    if THINK_START.isSuffixOf text then
      some (text.take (text.length - THINK_START.length) ++ THINK_END ++ job.content ++
        lit "<｜end▁of▁sentence｜>")
    else none
  | none => none

/-- The transcript that the next request will render, for `canonicalize_tool_checkpoint`. -/
def renderedCheckpoint : Bytes := job.req.promptText.getD [] ++ job.checkpointSuffix

/-- The tests of `canonicalize_tool_checkpoint` before it touches the session. -/
def rewriteNeeded (s : Session) : Bool :=
  let canonical := eng.tokenize (renderedCheckpoint job)
  let common := s.commonPrefix canonical
  job.req.promptText.isSome && !(common = s.pos && canonical.length = s.pos) &&
    s.tokens.flatMap eng.tokenText ≠ renderedCheckpoint job &&
    decide (job.req.prompt.length ≤ common)

/-- `ds4_session_rewrite_from_common` gets past its argument checks. -/
def rewriteAccepted (s : Session) : Bool :=
  s.valid && !decide (Session.SyncRejects eng.ctx (eng.tokenize (renderedCheckpoint job)))

/-- `canonicalize_tool_checkpoint` answers with a rebuild: the live tokens are not a prefix of
    the canonical ones. -/
def rebuilds (s : Session) : Bool :=
  rewriteNeeded eng job s && rewriteAccepted eng job s &&
    s.commonPrefix (eng.tokenize (renderedCheckpoint job)) ≠ s.pos

/-- The rebuild: an older disk checkpoint or nothing, then a sync. -/
def rebuild (s : Session) : Session :=
  let loaded := job.rebuildDisk.load eng s (renderedCheckpoint job)
  match loaded.2 with
  | some effective => (loaded.1.sync eng.ctx effective job.rebuildIo).1
  | none =>
    (Session.invalidate.sync eng.ctx (eng.tokenize (renderedCheckpoint job)) job.rebuildIo).1

/-- `canonicalize_tool_checkpoint` -/
def canonicalizeToolCheckpoint (s : Session) : Session :=
  if rebuilds eng job s then rebuild eng job s
  else if rewriteNeeded eng job s && rewriteAccepted eng job s then
    (s.sync eng.ctx (eng.tokenize (renderedCheckpoint job)) job.rewriteIo).1
  else s

/-- `generate_job` after the decode loop. -/
def finishJob : ServerState :=
  let sv := { sv with responsesLive := responsesAfter sv job }
  let sv := { sv with anthropicLive := anthropicAfter sv job }
  if canonicalizes sv job then
    { sv with
      session := canonicalizeToolCheckpoint eng job sv.session, thinkingLive := Binding.clear }
  else if parsedCalls job ≠ [] then { sv with thinkingLive := Binding.clear }
  else if remembersThinking job then
    { sv with
      thinkingLive :=
        match thinkingVisibleText job with
        | some visible => sv.thinkingLive.rememberThinking sv.session visible
        | none         => sv.thinkingLive }
  else { sv with thinkingLive := Binding.clear }

/-- `generate_job` -/
def runJob : ServerState :=
  if rejected eng sv job.req then sv
  else
    let prefilled := prefill eng sv job
    if prefilled.2 = false then { sv with session := prefilled.1 }
    else
      let sv := clearStale eng sv job prefilled.1
      if job.streamOk = false then sv
      else finishJob eng { sv with session := decoded job sv.session } job

/-! ### Which jobs keep the bindings sound -/

/-- The prefill fails without having moved the checkpoint: nothing is loaded, and the first sync
    of the job is the one that fails. -/
def FailsInPlace : Prop :=
  ((cachedPrompt eng sv job.req).isSome = true ∨ job.disk = .miss ∨ job.req.promptText = none) ∧
    (if coldRuns eng sv job = true then
      Session.SyncStays eng.ctx (job.req.prompt.take job.coldLen) job.coldIo
    else Session.SyncStays eng.ctx (prefillStart eng sv job).2 job.syncIo)

/-- No live binding is valid. -/
def Unbound : Prop :=
  sv.responsesLive.valid = false ∧ sv.anthropicLive.valid = false ∧ sv.thinkingLive.valid = false

/-- `canonicalize_tool_checkpoint` rebuilds the session that an Anthropic turn has just
    remembered. -/
def RebuildsBound : Prop :=
  job.req.api = .anthropic ∧ canonicalizes sv job = true ∧
    rebuilds eng job (decoded job (prefill eng sv job).1) = true

/-- A failing prefill moves nothing or finds nothing bound, and no session is rebuilt under an
    Anthropic binding. -/
def KeepsBindings : Prop :=
  rejected eng sv job.req = false →
    ((prefill eng sv job).2 = false → FailsInPlace eng sv job ∨ Unbound sv) ∧
      ((prefill eng sv job).2 = true → job.streamOk = true → ¬ RebuildsBound eng sv job)

/-- All three bindings are sound for the session. -/
def ServerState.Sound (sv : ServerState) : Prop :=
  sv.responsesLive.Sound sv.session.tokens ∧ sv.anthropicLive.Sound sv.session.tokens ∧
    sv.thinkingLive.Sound sv.session.tokens

/-! ### The prefill and the clears -/

variable {eng sv job}

theorem prefill_ok (h : (prefill eng sv job).2 = true) :
    (prefill eng sv job).1 = ⟨(prefillStart eng sv job).2, true⟩ := by
  unfold prefill at h ⊢
  dsimp only at h ⊢
  split at h
  · rename_i hcold
    rw [if_pos hcold]
    split at h
    · rename_i hc
      rw [if_pos hc]
      exact Session.sync_ok h
    · rename_i hc
      exact absurd h hc
  · rename_i hcold
    rw [if_neg hcold]
    exact Session.sync_ok h

theorem prefill_inPlace (h : FailsInPlace eng sv job) :
    (prefill eng sv job).1.tokens = sv.session.tokens := by
  obtain ⟨hsrc, hio⟩ := h
  -- nothing has been loaded when the first sync runs
  have hstart : (prefillStart eng sv job).1 = sv.session := by
    unfold prefillStart
    cases hc : cachedPrompt eng sv job.req with
    | some src => rfl
    | none =>
      obtain h | h | h := hsrc
      · exact absurd h (by simp [hc])
      · unfold diskPrompt
        rw [h]
        cases job.req.promptText <;> rfl
      · unfold diskPrompt
        rw [h]
  unfold prefill
  dsimp only
  rw [hstart]
  split
  · rename_i hcold
    rw [if_pos hcold] at hio
    -- a cold checkpoint is a part of the prompt of the request
    have hprompt : (prefillStart eng sv job).2 = job.req.prompt := by
      simp only [coldRuns, Bool.and_eq_true, Option.isNone_iff_eq_none] at hcold
      unfold prefillStart
      rw [hcold.1.1.1]
      show (diskPrompt eng sv job).2.getD job.req.prompt = job.req.prompt
      rw [hcold.1.1.2, Option.getD_none]
    rw [hprompt]
    obtain ⟨htok, hfail⟩ := Session.sync_stays (s := sv.session) hio
    rw [if_neg (by simp [hfail])]
    exact htok
  · rename_i hcold
    rw [if_neg hcold] at hio
    exact (Session.sync_stays hio).1

/-- A binding whose history the session extends. -/
def Binding.Along (b : Binding) (tokens : List Nat) : Prop :=
  b.valid = true →
    b.history ≠ [] ∧ b.history <+: tokens ∧ b.liveTokens = b.history.length

theorem Binding.along_clear (tokens : List Nat) : Binding.clear.Along tokens :=
  fun hv => absurd hv (by simp [Binding.clear])

theorem Binding.Along.sound {b : Binding} {tokens : List Nat} (h : b.Along tokens) :
    b.Sound tokens := by
  intro hv
  obtain ⟨-, hpre, hlen⟩ := h hv
  exact Binding.Sound.of_prefix hlen hpre (List.prefix_refl tokens) hv

/-- Decoding extends the session or, after a stop sequence, empties it. -/
theorem Binding.Along.decoded {b : Binding} {s : Session} (h : b.Along s.tokens) (job : Job) :
    b.Sound (decoded job s).tokens := by
  intro hv hl
  obtain ⟨hne, hpre, hlen⟩ := h hv
  unfold Server.decoded at hl ⊢
  split at hl
  · have hz : b.history.length = 0 := by
      rw [← hlen, hl]
      rfl
    exact absurd (List.length_eq_zero_iff.mp hz) hne
  · rename_i hcut
    rw [if_neg hcut]
    exact Binding.Sound.of_prefix hlen (hpre.trans (List.prefix_append _ _))
      (List.prefix_refl _) hv hl

/-- A live binding is along every prompt that extends the session. -/
theorem Binding.Sound.along {b : Binding} {s : Session} {prompt : List Nat}
    (h : b.Sound s.tokens) (hlive : b.isLive s = true) (hne : s.tokens ≠ [])
    (hpre : s.tokens <+: prompt) : b.Along prompt := by
  intro _
  obtain ⟨hhist, hlen⟩ := h.history_eq hlive
  exact ⟨by rw [hhist]; exact hne, by rw [hhist]; exact hpre, hlen⟩

/-- **The clears.** After a successful prefill a binding that is still valid is one the job
    continues: it is of the protocol of the request, and the session extends its history. -/
theorem clearStale_spec (hsv : sv.Sound) (h : (prefill eng sv job).2 = true) :
    let s := (prefill eng sv job).1
    (clearStale eng sv job s).responsesLive.Along s.tokens ∧
      (clearStale eng sv job s).anthropicLive.Along s.tokens ∧
      (clearStale eng sv job s).thinkingLive.Along s.tokens ∧
      (job.req.api ≠ .responses → (clearStale eng sv job s).responsesLive = Binding.clear) ∧
      (job.req.api ≠ .anthropic → (clearStale eng sv job s).anthropicLive = Binding.clear) := by
  obtain ⟨hr, ha, ht⟩ := hsv
  dsimp only
  rw [prefill_ok h]
  unfold clearStale prefillStart source
  cases hc : cachedPrompt eng sv job.req with
  | none => exact ⟨Binding.along_clear _, Binding.along_clear _, Binding.along_clear _,
      fun _ => rfl, fun _ => rfl⟩
  | some p =>
    obtain ⟨hne, hpre, hbr, hba, hbt⟩ := cachedPrompt_spec hc
    dsimp only [Option.map_some]
    simp only [Option.some.injEq]
    refine ⟨?_, ?_, ?_, ?_, ?_⟩
    · split
      · rename_i hsrc
        exact hr.along (hbr hsrc).2 hne hpre
      · exact Binding.along_clear _
    · split
      · rename_i hsrc
        exact ha.along (hba hsrc).2 hne hpre
      · exact Binding.along_clear _
    · split
      · rename_i hsrc
        exact ht.along (hbt hsrc) hne hpre
      · exact Binding.along_clear _
    · intro hapi
      rw [if_neg fun hsrc => hapi (hbr hsrc).1]
    · intro hapi
      rw [if_neg fun hsrc => hapi (hba hsrc).1]

/-! ### After the decode loop -/

theorem responsesAfter_sound (sv : ServerState) (job : Job)
    (h : sv.responsesLive.Sound sv.session.tokens) :
    (responsesAfter sv job).Sound sv.session.tokens := by
  have hcleared : (if job.req.kind = .chat ∧ parsedCalls job = [] then Binding.clear
      else sv.responsesLive).Sound sv.session.tokens := by
    split
    · exact Binding.sound_clear _
    · exact h
  unfold responsesAfter
  split
  · dsimp only
    split
    · exact Binding.rememberResponses_sound hcleared _ _
    · exact Binding.sound_clear _
  · exact h

theorem rememberAnthropic_sound (hb : sv.anthropicLive.Sound sv.session.tokens)
    (calls : List Bytes) :
    (sv.anthropicLive.rememberAnthropic sv.session calls).Sound sv.session.tokens := by
  by_cases hcalls : calls = []
  · unfold Binding.rememberAnthropic
    rw [if_pos hcalls]
    exact hb
  · intro _ _
    exact (Binding.rememberAnthropic_history hcalls).1.symm

theorem anthropicAfter_sound (sv : ServerState) (job : Job)
    (h : sv.anthropicLive.Sound sv.session.tokens) :
    (anthropicAfter sv job).Sound sv.session.tokens := by
  unfold anthropicAfter
  split
  · split
    · exact rememberAnthropic_sound h _
    · exact Binding.sound_clear _
  · exact h

/-- Without a rebuild the tool checkpoint stays as it is or is cut out of a transcript that
    extends it. -/
theorem canonicalizeToolCheckpoint_tokens {s : Session} (h : rebuilds eng job s = false) :
    ∃ whole, s.tokens <+: whole ∧ (canonicalizeToolCheckpoint eng job s).tokens <+: whole := by
  unfold canonicalizeToolCheckpoint
  rw [if_neg (by simp [h])]
  by_cases hrw : (rewriteNeeded eng job s && rewriteAccepted eng job s) = true
  · rw [if_pos hrw]
    -- the live tokens are a prefix of the canonical ones
    have hpre : s.tokens <+: eng.tokenize (renderedCheckpoint job) := by
      have hcommon : s.commonPrefix (eng.tokenize (renderedCheckpoint job)) = s.pos := by
        simpa [rebuilds, hrw] using h
      have hvalid : s.valid = true := by
        simp only [rewriteAccepted, Bool.and_eq_true] at hrw
        exact hrw.2.1
      unfold Session.commonPrefix at hcommon
      rw [if_pos hvalid] at hcommon
      exact commonLen_eq_length hcommon
    refine ⟨_, hpre, ?_⟩
    obtain hsame | hcut := Session.sync_tokens s eng.ctx
      (eng.tokenize (renderedCheckpoint job)) job.rewriteIo
    · rw [hsame]
      exact hpre
    · exact hcut
  · rw [if_neg hrw]
    exact ⟨s.tokens, List.prefix_refl _, List.prefix_refl _⟩

/-- **The end of a job.** From sound bindings, with those of other protocols cleared, a job ends
    with sound bindings unless it rebuilds the session of an Anthropic turn. -/
theorem finishJob_sound (hsv : sv.Sound)
    (hresp : job.req.api ≠ .responses → sv.responsesLive.valid = false)
    (hanth : job.req.api ≠ .anthropic → sv.anthropicLive.valid = false)
    (hrebuild : ¬ (job.req.api = .anthropic ∧ canonicalizes sv job = true ∧
      rebuilds eng job sv.session = true)) :
    (finishJob eng sv job).Sound := by
  obtain ⟨hr, ha, ht⟩ := hsv
  unfold finishJob
  dsimp only
  split
  · rename_i hcan
    have hcan' : canonicalizes sv job = true := hcan
    have hcan'' := hcan'
    simp only [canonicalizes, Bool.and_eq_true, decide_eq_true_eq] at hcan''
    obtain ⟨⟨hcalls, hapi⟩, -⟩ := hcan''
    refine ⟨?_, ?_, Binding.sound_clear _⟩
    -- a canonicalizing job is not a Responses job
    · show (responsesAfter sv job).Sound _
      unfold responsesAfter
      rw [if_neg hapi]
      exact Binding.Sound.of_invalid (hresp hapi) _
    · show (anthropicAfter { sv with responsesLive := responsesAfter sv job } job).Sound _
      unfold anthropicAfter
      by_cases hanthropic : job.req.api = .anthropic
      · have hno : rebuilds eng job sv.session = false := by
          rw [← Bool.not_eq_true]
          intro hreb
          exact hrebuild ⟨hanthropic, hcan', hreb⟩
        rw [if_pos hanthropic]
        split
        · obtain ⟨hhist, hlen⟩ := Binding.rememberAnthropic_history (b := sv.anthropicLive)
            (s := sv.session) hcalls
          obtain ⟨whole, hlive, hafter⟩ := canonicalizeToolCheckpoint_tokens hno
          exact Binding.Sound.of_prefix (by rw [hhist]; exact hlen) (by rw [hhist]; exact hlive)
            hafter
        · exact Binding.sound_clear _
      · rw [if_neg hanthropic]
        exact Binding.Sound.of_invalid (hanth hanthropic) _
  · have hr' := responsesAfter_sound sv job hr
    have ha' := anthropicAfter_sound { sv with responsesLive := responsesAfter sv job } job ha
    split
    · exact ⟨hr', ha', Binding.sound_clear _⟩
    · split
      · refine ⟨hr', ha', ?_⟩
        show (match thinkingVisibleText job with
          | some visible => sv.thinkingLive.rememberThinking sv.session visible
          | none         => sv.thinkingLive).Sound sv.session.tokens
        split
        · exact Binding.rememberThinking_sound ht _
        · exact ht
      · exact ⟨hr', ha', Binding.sound_clear _⟩

/-! ### Runs -/

/-- **One job.** -/
theorem runJob_sound (hsv : sv.Sound) (hkeep : KeepsBindings eng sv job) :
    (runJob eng sv job).Sound := by
  unfold runJob
  by_cases hrej : rejected eng sv job.req = true
  · rw [if_pos hrej]
    exact hsv
  rw [if_neg hrej]
  obtain ⟨hfail, hrebuild⟩ := hkeep (Bool.eq_false_iff.mpr hrej)
  dsimp only
  by_cases hok : (prefill eng sv job).2 = false
  -- the early return: no clears
  · rw [if_pos hok]
    obtain hplace | ⟨hr, ha, ht⟩ := hfail hok
    · have htok := prefill_inPlace hplace
      obtain ⟨hr, ha, ht⟩ := hsv
      exact ⟨htok ▸ hr, htok ▸ ha, htok ▸ ht⟩
    · exact ⟨Binding.Sound.of_invalid hr _, Binding.Sound.of_invalid ha _,
        Binding.Sound.of_invalid ht _⟩
  rw [if_neg hok]
  rw [Bool.not_eq_false] at hok
  obtain ⟨hr, ha, ht, hresp, hanth⟩ := clearStale_spec hsv hok
  by_cases hstream : job.streamOk = false
  · rw [if_pos hstream]
    exact ⟨hr.sound, ha.sound, ht.sound⟩
  rw [if_neg hstream]
  apply finishJob_sound
  · exact ⟨hr.decoded job, ha.decoded job, ht.decoded job⟩
  · intro hapi
    show (clearStale eng sv job (prefill eng sv job).1).responsesLive.valid = false
    rw [hresp hapi]
    rfl
  · intro hapi
    show (clearStale eng sv job (prefill eng sv job).1).anthropicLive.valid = false
    rw [hanth hapi]
    rfl
  · exact hrebuild hok (Bool.not_eq_false _ ▸ hstream)

theorem init_sound (disableReplay : Bool) : (ServerState.init disableReplay).Sound :=
  ⟨Binding.sound_clear _, Binding.sound_clear _, Binding.sound_clear _⟩

end job

/-- **Binding soundness.** In every run of jobs from a fresh server, if no job fails its prefill
    after having moved the checkpoint under a valid binding, and none rebuilds the session an
    Anthropic turn has remembered, every valid binding whose count is the session's position has
    the session's history. -/
theorem bindings_sound_of_run (eng : Engine) (disableReplay : Bool) (jobs : List Job)
    (h : Lib.Guarded (runJob eng) (KeepsBindings eng) (ServerState.init disableReplay) jobs) :
    (jobs.foldl (runJob eng) (ServerState.init disableReplay)).Sound :=
  h.invariant (fun _ _ hsv hkeep => runJob_sound hsv hkeep) (init_sound disableReplay)

/-! ### Two runs -/

/-- An engine whose tokens are bytes. -/
def byteEngine : Engine where
  ctx := 16
  tokenize := fun text => text.map UInt8.toNat
  tokenText := fun token => [UInt8.ofNat token]

/-- A chat request without tools and without live state. -/
def chatRequest (api : Api) (text : Bytes) : Request where
  kind := .chat
  api := api
  prompt := text.map UInt8.toNat
  promptText := some text
  thinking := false
  hasTools := false
  promptPreservesReasoning := false
  responsesLiveSuffixText := none
  responsesLiveCallIds := []
  responsesRequiresLiveToolState := false
  anthropicLiveSuffixText := none
  anthropicLiveCallIds := []
  anthropicRequiresLiveToolState := false

/-- A job in which nothing fails and the reply is `reply`. -/
def plainJob (api : Api) (text reply : Bytes) : Job where
  req := chatRequest api text
  disk := .miss
  coldLen := 0
  coldIo := .ok
  syncIo := .ok
  streamOk := true
  generated := reply.map UInt8.toNat
  stopCut := false
  evalFailed := false
  finish := .stop
  thinkingInside := false
  content := reply
  calls := []
  rawDsml := false
  visibleSuffix := reply
  checkpointSuffix := []
  rewriteIo := .ok
  rebuildDisk := .miss
  rebuildIo := .ok

/-- A Responses turn is remembered, and a second turn continues from its visible text. -/
theorem continued_turn_sound :
    ([plainJob .responses (lit "a") (lit "b"), plainJob .responses (lit "abc") (lit "d")].foldl
      (runJob byteEngine) (ServerState.init false)).Sound := by
  apply bindings_sound_of_run
  refine ⟨?_, ?_, trivial⟩
  · exact fun _ => ⟨fun hfail => absurd hfail (by decide), fun _ _ hreb => absurd hreb.1 (by decide)⟩
  · exact fun _ => ⟨fun hfail => absurd hfail (by decide), fun _ _ hreb => absurd hreb.1 (by decide)⟩

/-- **A stale binding.** A Responses turn is remembered at two tokens; the next job loads another
    conversation of two tokens from disk, fails to extend it and returns before the clears. -/
theorem failed_prefill_keeps_stale_binding :
    let jobs :=
      [plainJob .responses (lit "a") (lit "b"),
        { plainJob .openai (lit "cde") [] with
          disk := .hit ((lit "cd").map UInt8.toNat) 2, syncIo := .failed none }]
    let sv := jobs.foldl (runJob byteEngine) (ServerState.init false)
    sv.responsesLive.valid = true ∧ sv.responsesLive.liveTokens = sv.session.tokens.length ∧
      sv.session.tokens ≠ sv.responsesLive.history := by
  decide

end DS4.Server
