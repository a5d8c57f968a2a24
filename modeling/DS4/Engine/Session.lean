import DS4.Engine.Network

namespace DS4.Engine

/-!
# Engine — `ds4_session` and its calls

The session keeps the tokens, the caches and the host logits in separate fields, and each call
moves them in its own order.  Every failure is a choice of the environment, and so is what a
failed call leaves behind.

* `Backend` — the decode of one token, exact on caches that hold a history.
* `sync`, `eval`, `rewind`, `invalidate`, `rewriteFromCommon` — the calls.
* `savePayload`, `loadPayload` — snapshots.
* `Coherent` — caches and logits are those of the checkpoint; one lemma for each call says when
  it keeps `Sound`: a valid checkpoint is coherent.
-/

/-! ### The backend -/

/-- The decode of one token at a position.  On caches that hold a history of that length it
    computes the network; on others it may do anything. -/
structure Backend (net : Network) where
  decode : Kv net → Nat → Nat → Kv net × net.Logits
  decode_spec : ∀ h kv t, Holds net h kv →
    decode kv h.length t = (kv.write (h ++ [t]), net.logits (h ++ [t]))

/-- A GPU call computes its result or fails, leaving `kv` in what it was to write and `logits` in
    the host logits. -/
inductive Call (net : Network) where
  | ok
  | failed (kv : Kv net) (logits : net.Logits)

variable {net : Network}

/-- Tokens one after the other: the caches, and the logits after each of them.  This is also what
    a batched prefill or verification computes. -/
def feed (be : Backend net) : Kv net → Nat → List Nat → Kv net × List net.Logits
  | kv, _, []        => (kv, [])
  | kv, pos, t :: ts =>
    let r := be.decode kv pos t
    let rest := feed be r.1 (pos + 1) ts
    (rest.1, r.2 :: rest.2)

variable (be : Backend net)

/-- **Feeding tokens.** -/
theorem holds_feed {h : List Nat} {kv : Kv net} (hk : Holds net h kv) (ts : List Nat) :
    Holds net (h ++ ts) (feed be kv h.length ts).1 := by
  induction ts generalizing h kv with
  | nil =>
    rw [List.append_nil]
    exact hk
  | cons t ts ih =>
    have hnext : Holds net (h ++ [t]) (be.decode kv h.length t).1 := by
      rw [be.decode_spec h kv t hk]
      exact holds_write hk t
    have hlen : (h ++ [t]).length = h.length + 1 := by simp
    have hrest := ih hnext
    rw [hlen] at hrest
    rw [List.append_cons]
    exact hrest

/-- The logits after each token. -/
def rowsOf (net : Network) : List Nat → List Nat → List net.Logits
  | _, []      => []
  | h, t :: ts => net.logits (h ++ [t]) :: rowsOf net (h ++ [t]) ts

theorem rowsOf_getLast (h : List Nat) {ts : List Nat} (hts : ts ≠ []) :
    (rowsOf net h ts).getLast? = some (net.logits (h ++ ts)) := by
  induction ts generalizing h with
  | nil => exact absurd rfl hts
  | cons t ts ih =>
    cases ts with
    | nil => rfl
    | cons t' ts =>
      have hlast := ih (h ++ [t]) (by simp)
      rw [rowsOf, rowsOf, List.getLast?_cons_cons, ← rowsOf, hlast, List.append_assoc]
      rfl

/-- **Exactness.** The logits rows of a batch are those of one-token decode. -/
theorem feed_rows {h : List Nat} {kv : Kv net} (hk : Holds net h kv) (ts : List Nat) :
    (feed be kv h.length ts).2 = rowsOf net h ts := by
  induction ts generalizing h kv with
  | nil => rfl
  | cons t ts ih =>
    have hdec := be.decode_spec h kv t hk
    have hnext : Holds net (h ++ [t]) (be.decode kv h.length t).1 := by
      rw [hdec]
      exact holds_write hk t
    have hrest := ih hnext
    have hlen : (h ++ [t]).length = h.length + 1 := by simp
    rw [hlen] at hrest
    show (be.decode kv h.length t).2 :: (feed be (be.decode kv h.length t).1 (h.length + 1) ts).2 = _
    rw [hrest, hdec, rowsOf]

/-! ### The session -/

/-- `ds4_session`: `mtpDraft` is `mtp_draft_token` while `mtp_draft_valid`. -/
structure Session (net : Network) where
  checkpoint : List Nat
  checkpointValid : Bool
  kv : Kv net
  logits : net.Logits
  mtpDraft : Option Nat

/-- What the session was created with, and what the process environment sets. -/
structure Config where
  /-- `ds4_session_is_cpu` -/
  cpu : Bool
  ctxSize : Nat
  prefillCap : Nat
  compCap : Nat
  /-- `metal_graph_resume_prefill_min_tokens` -/
  resumeMin : Nat
  mtpReady : Bool
  mtpDraftTokens : Nat
  /-- `DS4_MTP_PROBE` -/
  mtpProbeLog : Bool
  /-- `quality` or `DS4_MTP_STRICT` -/
  strictMtp : Bool
  /-- `mtp_margin_threshold > 0` -/
  marginPositive : Bool
  /-- `DS4_MTP_BATCH_VERIFY` -/
  batchVerify : Bool
  /-- `DS4_MTP_CAPTURE_PREFIX1` -/
  capturePrefix1 : Bool
  /-- `DS4_MTP_EXACT_REPLAY` -/
  exactReplay : Bool
  /-- `DS4_MTP_FORCE_SNAPSHOT` -/
  forceSnapshot : Bool

namespace Session

/-- Caches and host logits are those of exactly the tokens of the checkpoint. -/
def Coherent (s : Session net) : Prop :=
  Holds net s.checkpoint s.kv ∧ s.logits = net.logits s.checkpoint

/-- A valid checkpoint is coherent. -/
def Sound (s : Session net) : Prop := s.checkpointValid = true → s.Coherent

/-- `ds4_session_invalidate` -/
def invalidate (s : Session net) : Session net :=
  { s with checkpoint := [], checkpointValid := false, mtpDraft := none }

/-- `ds4_session_rewind` -/
def rewind (s : Session net) (pos : Int) : Session net :=
  { s with checkpoint := s.checkpoint.take pos.toNat, mtpDraft := none }

/-- Decode one token at the end of the checkpoint into the host logits and push it; a failure
    invalidates the checkpoint. -/
def evalToken (s : Session net) (token : Nat) : Call net → Session net × Bool
  | .ok =>
    let r := be.decode s.kv s.checkpoint.length token
    ({ s with kv := r.1, logits := r.2, checkpoint := s.checkpoint ++ [token] }, true)
  | .failed kv logits =>
    ({ s with
      kv := s.kv.smash s.checkpoint.length 1 kv, logits := logits, checkpointValid := false }, false)

/-- What the environment decides about a `ds4_session_eval`: the decode, and the MTP draft after
    it, if that succeeds. -/
structure EvalIo (net : Network) where
  call : Call net
  draft : Option Nat

/-- `ds4_session_eval` -/
def eval (cfg : Config) (s : Session net) (token : Nat) (io : EvalIo net) : Session net × Bool :=
  if cfg.cpu then
    ({ (s.evalToken be token .ok).1 with checkpointValid := true, mtpDraft := none }, true)
  else
    let r := { s with mtpDraft := none }.evalToken be token io.call
    if r.2 && cfg.mtpReady && (decide (1 < cfg.mtpDraftTokens) || cfg.mtpProbeLog) then
      ({ r.1 with mtpDraft := io.draft }, true)
    else r

/-! ### Sync -/

/-- A batched prefill: it computes, or fails and leaves anything.  `noted` is the last chunk its
    progress callback has put into the checkpoint. -/
inductive PrefillCall (net : Network) where
  | ok (noted : Option Nat)
  | failed (kv : Kv net) (logits : net.Logits) (noted : Option Nat)

/-- What the environment decides about a `ds4_session_sync`. -/
structure SyncIo (net : Network) where
  resume : PrefillCall net
  /-- the calls after a resume prefill: slot cache, dense cache, decode views -/
  resumeDone : Bool
  /-- the decode views before a short suffix -/
  views : Bool
  steps : Nat → Call net
  full : PrefillCall net
  /-- the calls after a full prefill -/
  fullDone : Bool

/-- `ds4_session_note_prefill_progress`: a chunk is put into the checkpoint. -/
def noteProgress (s : Session net) (prompt : List Nat) (noted : Option Nat) : Session net :=
  match noted with
  | some n => { s with checkpoint := prompt.take n, checkpointValid := true, mtpDraft := none }
  | none   => s

/-- Decode the tokens of a short suffix. -/
def decodeSuffix (s : Session net) (steps : Nat → Call net) : List Nat → Session net × Bool
  | []      => (s, true)
  | t :: ts =>
    let r := s.evalToken be t (steps 0)
    if r.2 then decodeSuffix r.1 (fun i => steps (i + 1)) ts else r

/-- A batched prefill of `ts` from `kv` at `pos`, into the session. -/
def prefillInto (s : Session net) (kv : Kv net) (pos : Nat) (ts : List Nat) : Session net :=
  let r := feed be kv pos ts
  { s with kv := r.1, logits := r.2.getLast?.getD s.logits }

/-- The full prefill of the prompt; any failure invalidates. -/
def fullPrefill (s : Session net) (prompt : List Nat) (io : SyncIo net) : Session net × Bool :=
  match io.full with
  | .failed kv logits noted =>
    ({ s.noteProgress prompt noted with kv := kv, logits := logits, checkpointValid := false }, false)
  | .ok noted =>
    let s' := (s.noteProgress prompt noted).prefillInto be s.kv.reset 0 prompt
    if io.fullDone then
      ({ s' with checkpoint := prompt, checkpointValid := true, mtpDraft := none }, true)
    else ({ s' with checkpointValid := false }, false)

/-- `ds4_session_sync`; the flag is success. -/
def sync (cfg : Config) (s : Session net) (prompt : List Nat) (io : SyncIo net) :
    Session net × Bool :=
  if prompt = [] ∨ cfg.ctxSize ≤ prompt.length then (s, false)
  else if s.checkpointValid = true ∧ s.checkpoint.isPrefixOf prompt = true then
    let suffix := prompt.drop s.checkpoint.length
    let s := { s with mtpDraft := none }
    if cfg.cpu then s.decodeSuffix be (fun _ => .ok) suffix
    else if 0 < suffix.length ∧ cfg.resumeMin ≤ suffix.length then
      match io.resume with
      | .failed kv logits noted =>
        -- the failed resume falls back to a full prefill
        fullPrefill be
          { s.noteProgress prompt noted with kv := kv, logits := logits, checkpointValid := false }
          prompt io
      | .ok noted =>
        let s' := (s.noteProgress prompt noted).prefillInto be s.kv s.checkpoint.length suffix
        if io.resumeDone then ({ s' with checkpoint := prompt, checkpointValid := true }, true)
        else ({ s' with checkpointValid := false }, false)
    else if 0 < suffix.length ∧ io.views = false then ({ s with checkpointValid := false }, false)
    else s.decodeSuffix be io.steps suffix
  else if cfg.cpu then
    ({ s.prefillInto be s.kv.reset 0 prompt with
      checkpoint := prompt, checkpointValid := true, mtpDraft := none }, true)
  else fullPrefill be s prompt io

/-- `ds4_session_rewrite_result` -/
inductive Rewrite where
  | ok
  | error
  | rebuildNeeded
  deriving DecidableEq

/-- `ds4_session_rewrite_requires_rebuild` -/
def rewriteRequiresRebuild (liveLen canonicalLen common : Nat) : Bool :=
  liveLen < common || canonicalLen < common || common < liveLen

/-- `ds4_session_rewrite_from_common` -/
def rewriteFromCommon (cfg : Config) (s : Session net) (prompt : List Nat) (common : Int)
    (io : SyncIo net) : Session net × Rewrite :=
  if prompt = [] ∨ cfg.ctxSize ≤ prompt.length then (s, .error)
  else if s.checkpointValid = false then (s, .error)
  else if common < 0 ∨ s.checkpoint.length < common.toNat ∨ prompt.length < common.toNat then
    (s, .error)
  else if s.checkpoint.take common.toNat ≠ prompt.take common.toNat then (s, .error)
  else if common.toNat = s.checkpoint.length then
    let r := s.sync be cfg prompt io
    (r.1, if r.2 then .ok else .error)
  else if rewriteRequiresRebuild s.checkpoint.length prompt.length common.toNat then
    (s, .rebuildNeeded)
  else (s, .error)

/-! ### What the calls keep -/

variable {be} {s : Session net}

theorem evalToken_ok (hk : Holds net s.checkpoint s.kv) (token : Nat) :
    (s.evalToken be token .ok).1.Coherent := by
  have hdec := be.decode_spec s.checkpoint s.kv token hk
  constructor
  · show Holds net (s.checkpoint ++ [token]) (be.decode s.kv s.checkpoint.length token).1
    rw [hdec]
    exact holds_write hk token
  · show (be.decode s.kv s.checkpoint.length token).2 = _
    rw [hdec]
    rfl

/-- **Eval.** It is sound on a session whose caches hold the checkpoint.  On the GPU a valid
    checkpoint is enough: eval does not make an invalid one valid. -/
theorem eval_sound {cfg : Config} (hs : s.Sound)
    (hcpu : cfg.cpu = true → s.checkpointValid = true ∨ Holds net s.checkpoint s.kv)
    (token : Nat) (io : EvalIo net) : (s.eval be cfg token io).1.Sound := by
  unfold eval
  by_cases hc : cfg.cpu = true
  · rw [if_pos hc]
    intro _
    obtain hv | hk := hcpu hc
    · exact evalToken_ok (hs hv).1 token
    · exact evalToken_ok hk token
  rw [if_neg hc]
  have htok : ({ s with mtpDraft := none }.evalToken be token io.call).1.Sound := by
    intro hv
    cases hcall : io.call with
    | ok =>
      rw [hcall] at hv
      exact evalToken_ok (s := { s with mtpDraft := none }) (hs hv).1 token
    | failed kv logits =>
      rw [hcall] at hv
      exact absurd hv (by simp [evalToken])
  dsimp only
  split
  · exact htok
  · exact htok

/-- A short suffix, decoded from a coherent session. -/
theorem decodeSuffix_sound (hs : s.Coherent) (ts : List Nat) (steps : Nat → Call net) :
    (s.decodeSuffix be steps ts).1.Sound := by
  induction ts generalizing s steps with
  | nil => exact fun _ => hs
  | cons t ts ih =>
    unfold decodeSuffix
    dsimp only
    cases hcall : steps 0 with
    | ok => exact ih (evalToken_ok hs.1 t) _
    | failed kv logits => exact fun hv => absurd hv (by simp [evalToken])

/-- The rows of a batch end with the logits of its last token. -/
theorem prefillInto_coherent {h ts : List Nat} {kv : Kv net} (hk : Holds net h kv) (hts : ts ≠ [])
    (s : Session net) :
    Holds net (h ++ ts) (s.prefillInto be kv h.length ts).kv ∧
      (s.prefillInto be kv h.length ts).logits = net.logits (h ++ ts) := by
  refine ⟨holds_feed be hk ts, ?_⟩
  show ((feed be kv h.length ts).2.getLast?).getD s.logits = _
  rw [feed_rows be hk, rowsOf_getLast h hts, Option.getD_some]

theorem fullPrefill_sound (s : Session net) {prompt : List Nat} (hne : prompt ≠ [])
    (io : SyncIo net) : (s.fullPrefill be prompt io).1.Sound := by
  unfold fullPrefill
  cases io.full with
  | failed kv logits noted => exact fun hv => absurd hv (by simp)
  | ok noted =>
    dsimp only
    split
    · intro _
      exact prefillInto_coherent (h := []) (holds_reset s.kv) hne (s.noteProgress prompt noted)
    · exact fun hv => absurd hv (by simp)

/-- **Sync.** Every exit leaves a checkpoint that is invalid or coherent. -/
theorem sync_sound {cfg : Config} (hs : s.Sound) (prompt : List Nat) (io : SyncIo net) :
    (s.sync be cfg prompt io).1.Sound := by
  unfold sync
  split
  · exact hs
  rename_i hprompt
  have hne : prompt ≠ [] := fun h => hprompt (Or.inl h)
  split
  · rename_i hpre
    obtain ⟨hv, hpre⟩ := hpre
    obtain ⟨suffix, rfl⟩ := List.isPrefixOf_iff_prefix.mp hpre
    obtain ⟨hk, hl⟩ := hs hv
    have hcoh : ({ s with mtpDraft := none } : Session net).Coherent := ⟨hk, hl⟩
    rw [List.drop_left]
    dsimp only
    split
    · exact decodeSuffix_sound hcoh _ _
    · split
      · rename_i hlong
        cases io.resume with
        | failed kv logits noted => exact fullPrefill_sound _ hne io
        | ok noted =>
          dsimp only
          split
          · intro _
            exact prefillInto_coherent hk (List.ne_nil_of_length_pos hlong.1) _
          · exact fun hv => absurd hv (by simp)
      · split
        · exact fun hv => absurd hv (by simp)
        · exact decodeSuffix_sound hcoh _ _
  · split
    · intro _
      exact prefillInto_coherent (h := []) (holds_reset s.kv) hne s
    · exact fullPrefill_sound s hne io

theorem rewriteFromCommon_sound {cfg : Config} (hs : s.Sound) (prompt : List Nat) (common : Int)
    (io : SyncIo net) : (s.rewriteFromCommon be cfg prompt common io).1.Sound := by
  unfold rewriteFromCommon
  split
  · exact hs
  split
  · exact hs
  split
  · exact hs
  split
  · exact hs
  split
  · exact sync_sound hs prompt io
  split <;> exact hs

theorem invalidate_sound (s : Session net) : s.invalidate.Sound :=
  fun hv => absurd hv (by simp [invalidate])

/-- **Rewind.** It keeps soundness when it does not shorten a valid checkpoint. -/
theorem rewind_sound (hs : s.Sound) (pos : Int)
    (hpos : s.checkpointValid = true → s.checkpoint.length ≤ pos.toNat) : (s.rewind pos).Sound := by
  intro hv
  obtain ⟨hk, hl⟩ := hs hv
  have htake : s.checkpoint.take pos.toNat = s.checkpoint := List.take_of_length_le (hpos hv)
  constructor
  · show Holds net (s.checkpoint.take pos.toNat) s.kv
    rw [htake]
    exact hk
  · show s.logits = net.logits (s.checkpoint.take pos.toNat)
    rw [htake]
    exact hl

end Session

end DS4.Engine
