import DS4.Engine.Session

namespace DS4.Engine

/-!
# Engine — `ds4_session_eval_speculative_argmax`

One call commits the given token, lets the drafter propose a suffix, verifies it with the target
network and commits an accepted prefix.  There are five ways to commit (margin skip, exact pair,
micro batch, prefix-one, replay) and a sequential fallback; a failure in one falls into the next.

* `specStart` — the first token and the drafts.
* `marginSkip`, `decode2Exact`, `microBatch`, `sequential` — the ways to commit, each as an
  `Attempt` on the session.
* `greedy` — what repeated one-token decode produces; `Committed` — drafts committed exactly.
* `Decode2Clean`, `MicroClean` — no result of a failed restore or replay is committed.
-/

variable {net : Network}

/-! ### The environment -/

/-- A restore of counters and frontiers; a failed one leaves any of them. -/
inductive RestoreIo (net : Network) where
  | ok
  | failed (f : Frontier net)

/-- What the environment decides about one call, in the order in which it may happen. -/
structure SpecIo (net : Network) where
  eval : Session.EvalIo net
  /-- `metal_graph_ctx_grow_ensure` -/
  growOk : Bool
  /-- the drafts after the first one -/
  drafter : List (Option Nat)
  /-- `mtp_last_margin < mtp_margin_threshold` -/
  marginLow : Bool
  marginCall : Call net
  /-- `spec_frontier_snapshot` -/
  snapshotOk : Bool
  verify : Call net
  /-- the restore and the decodes of `DS4_MTP_EXACT_REPLAY` -/
  restoreReplay : RestoreIo net
  replay : Nat → Call net
  readRow : Bool
  /-- `spec_frontier_commit_prefix1` -/
  commitPrefix : RestoreIo net
  readRow0 : Bool
  /-- the restore before a partial commit, and that commit -/
  restore : RestoreIo net
  replayOne : Call net
  reverify : Call net
  rereadRow : Bool
  /-- the restore before the sequential fallback -/
  restoreLast : RestoreIo net
  seq : Nat → Call net
  seqRead : Bool

/-- `spec_frontier_restore`, `spec_frontier_commit_prefix1`; the flag is success. -/
def Kv.restoreIo (kv : Kv net) (f : Frontier net) : RestoreIo net → Kv net × Bool
  | .ok        => (kv.restore f, true)
  | .failed f' => (kv.restore f', false)

variable (be : Backend net)

/-- The verifier: the caches afterwards, and the logits rows if it succeeds. -/
def verifyBatch (kv : Kv net) (pos : Nat) (drafts : List Nat) :
    Call net → Kv net × Option (List net.Logits)
  | .ok =>
    let r := feed be kv pos drafts
    (r.1, some r.2)
  | .failed junk _ => (kv.smash pos drafts.length junk, none)

/-- One decode into a local row of logits. -/
def decodeRow (kv : Kv net) (pos token : Nat) : Call net → Kv net × Option net.Logits
  | .ok =>
    let r := be.decode kv pos token
    (r.1, some r.2)
  | .failed junk _ => (kv.smash pos 1 junk, none)

/-- `spec_prefix1_*`: what the verifier captures after the first draft. -/
def prefix1 (kv : Kv net) (pos token : Nat) : Frontier net := (be.decode kv pos token).1.frontier

/-! ### Drafting -/

/-- The recursive drafts: at most `budget` more, up to an end token; none if a draft fails. -/
def draftLoop (eos : Nat) : Nat → List (Option Nat) → Option (List Nat)
  | 0, _                    => some []
  | budget + 1, some t :: ts => if t = eos then some [t] else (draftLoop eos budget ts).map (t :: ·)
  | _ + 1, _                => none

/-- How the part before the verification ends. -/
inductive Start (net : Network) where
  /-- with a result: `none` is an error -/
  | returned (s : Session net) (accepted : Option (List Nat))
  /-- with drafts to verify -/
  | drafted (s : Session net) (drafts : List Nat)

/-- `draft_cap` for a session that holds the first token. -/
def draftCap (cfg : Config) (s : Session net) (maxTokens acceptedCap : Int) : Nat :=
  min (min (min cfg.mtpDraftTokens (maxTokens.toNat - 1)) (acceptedCap.toNat - 1))
    (cfg.ctxSize - s.checkpoint.length - 1)

/-- Everything before the verification, on the GPU. -/
def specStart (cfg : Config) (s : Session net) (first : Nat) (maxTokens : Int) (eos : Nat)
    (acceptedCap : Int) (io : SpecIo net) : Start net :=
  let r := s.eval be cfg first io.eval
  if r.2 = false then .returned r.1 none
  else if first = eos ∨ maxTokens = 1 ∨ acceptedCap ≤ 1 then .returned r.1 (some [first])
  else
    match r.1.mtpDraft with
    | none   => .returned r.1 (some [first])
    | some d =>
      let budget := draftCap cfg r.1 maxTokens acceptedCap
      if cfg.mtpReady = false ∨ cfg.mtpDraftTokens ≤ 1 then .returned r.1 (some [first])
      else if budget = 0 then .returned r.1 (some [first])
      else if io.growOk = false then .returned r.1 none
      else
        let s := { r.1 with mtpDraft := none }
        -- the first draft is verified by the logits of the first token
        if net.top s.logits ≠ d then .returned s (some [first])
        else
          match draftLoop eos (if d = eos then 0 else budget - 1) io.drafter with
          | none        => .returned s (some [first])
          | some drafts => .drafted s (d :: drafts)

/-! ### Committing drafts -/

/-- How one way to commit ends. -/
inductive Attempt (net : Network) where
  /-- the call returns, with these drafts accepted -/
  | done (s : Session net) (accepted : List Nat)
  /-- the call returns an error -/
  | error (s : Session net)
  /-- the next way is tried -/
  | fallthrough (s : Session net)

/-- The loops that fill `accepted`: at most `room` tokens, none after an end token. -/
def acceptLoop (eos : Nat) : Nat → List Nat → List Nat
  | 0, _             => []
  | _ + 1, []        => []
  | room + 1, t :: ts => if t = eos then [t] else t :: acceptLoop eos room ts

/-- How many tops agree with the drafts they predict. -/
def agreeing : List Nat → List Nat → Nat
  | top :: tops, d :: ds => if top = d then agreeing tops ds + 1 else 0
  | _, _                 => 0

/-- `commit_drafts` -/
def commitDrafts (rows : List net.Logits) (drafts : List Nat) : Nat :=
  agreeing (rows.map net.top) (drafts.drop 1) + 1

/-- The session with new caches, logits and tokens after `s.checkpoint`. -/
def commitTo (s : Session net) (kv : Kv net) (logits : net.Logits) (tokens : List Nat) :
    Session net where
  checkpoint := s.checkpoint ++ tokens
  checkpointValid := true
  kv := kv
  logits := logits
  mtpDraft := none

/-- The last logits row. -/
def lastRow (s : Session net) (rows : List net.Logits) : net.Logits := rows.getLast?.getD s.logits

/-- A low drafter margin: decode the first draft alone. -/
def marginSkip (s : Session net) (draft : Nat) (io : SpecIo net) : Attempt net :=
  let r := decodeRow be s.kv s.checkpoint.length draft io.marginCall
  match r.2 with
  | some row => .done (commitTo s r.1 row [draft]) [draft]
  | none     => .error { s with kv := r.1, checkpointValid := false }

/-- The restore whose result is ignored before the fallback. -/
def restoreLast (s : Session net) (kv : Kv net) (io : SpecIo net) : Attempt net :=
  .fallthrough { s with kv := (kv.restoreIo s.kv.frontier io.restoreLast).1 }

/-- The exact verifier for two drafts. -/
def decode2Exact (s : Session net) (d0 d1 room : Nat) (io : SpecIo net) : Attempt net :=
  if io.snapshotOk = false then .fallthrough s
  else
    let v := verifyBatch be s.kv s.checkpoint.length [d0, d1] io.verify
    match v.2 with
    | none      => restoreLast s v.1 io
    | some rows =>
      if (rows.map net.top).head? = some d1 then
        .done (commitTo s v.1 (lastRow s rows) [d0, d1]) (if 1 < room then [d0, d1] else [d0])
      else
        let r := v.1.restoreIo (prefix1 be s.kv s.checkpoint.length d0) io.commitPrefix
        if r.2 then .done (commitTo s r.1 (rows.head?.getD s.logits) [d0]) [d0]
        else restoreLast s r.1 io

/-- The decodes of the exact replay: the caches, the tokens pushed, the last row, success. -/
def replayLoop : Kv net → Nat → List Nat → (Nat → Call net) → net.Logits →
    Kv net × List Nat × net.Logits × Bool
  | kv, _, [], _, row          => (kv, [], row, true)
  | kv, pos, t :: ts, calls, row =>
    let r := decodeRow be kv pos t (calls 0)
    match r.2 with
    | some row => 
      let rest := replayLoop r.1 (pos + 1) ts (fun i => calls (i + 1)) row
      (rest.1, t :: rest.2.1, rest.2.2)
    | none => (r.1, [], row, false)

/-- `capture_prefix1` -/
def capturesPrefix1 (cfg : Config) (n : Nat) : Bool :=
  n = 2 && (!cfg.strictMtp || cfg.capturePrefix1)

/-- `snapshot_required` -/
def snapshotRequired (cfg : Config) (n : Nat) : Bool :=
  2 < n || (n = 2 && (!capturesPrefix1 cfg n || cfg.exactReplay)) || cfg.forceSnapshot

/-- `have_frontier`, once the verifier has run -/
def haveFrontier (cfg : Config) (n : Nat) (io : SpecIo net) : Bool :=
  snapshotRequired cfg n && io.snapshotOk

/-- The end of the micro batch when nothing was committed. -/
def microFails (cfg : Config) (s : Session net) (kv : Kv net) (drafts : List Nat) (io : SpecIo net) :
    Attempt net :=
  if haveFrontier cfg drafts.length io then restoreLast s kv io
  else .error { s with kv := kv, checkpointValid := false }

/-- The partial commits of the micro batch: the captured prefix, or a restore and a replay. -/
def commitPartial (cfg : Config) (s : Session net) (kv : Kv net) (rows : List net.Logits)
    (drafts : List Nat) (eos room : Nat) (io : SpecIo net) : Attempt net :=
  let n := drafts.length
  let commit := commitDrafts rows drafts
  let pos := s.checkpoint.length
  let d0 := drafts.head?.getD 0
  if n = 2 ∧ commit = 1 ∧ capturesPrefix1 cfg n = true then
    let r := kv.restoreIo (prefix1 be s.kv pos d0) io.commitPrefix
    if r.2 && io.readRow0 then .done (commitTo s r.1 (rows.head?.getD s.logits) [d0]) [d0]
    else microFails cfg s r.1 drafts io
  else if haveFrontier cfg n io = false then microFails cfg s kv drafts io
  else
    let r := kv.restoreIo s.kv.frontier io.restore
    if r.2 = false then microFails cfg s r.1 drafts io
    else if n = 2 ∧ commit = 1 then
      let q := decodeRow be r.1 pos d0 io.replayOne
      match q.2 with
      | some row => .done (commitTo s q.1 row [d0]) [d0]
      | none     => microFails cfg s q.1 drafts io
    else
      let q := verifyBatch be r.1 pos (drafts.take commit) io.reverify
      match q.2 with
      | some again =>
        if io.rereadRow then
          .done (commitTo s q.1 (lastRow s again) (drafts.take commit))
            (acceptLoop eos room (drafts.take commit))
        else microFails cfg s q.1 drafts io
      | none => microFails cfg s q.1 drafts io

/-- The micro batch after the verifier and the exact replay: `pushed` is what the checkpoint has
    after its start. -/
def commitVerified (cfg : Config) (s : Session net) (kv : Kv net) (pushed : List Nat)
    (rows : List net.Logits) (drafts : List Nat) (eos room : Nat) (io : SpecIo net) : Attempt net :=
  if commitDrafts rows drafts = drafts.length ∧ io.readRow = true then
    .done (commitTo s kv (lastRow s rows) pushed) (acceptLoop eos room drafts)
  else commitPartial be cfg s kv rows drafts eos room io

/-- The micro batch verifier. -/
def microBatch (cfg : Config) (s : Session net) (drafts : List Nat) (eos room : Nat)
    (io : SpecIo net) : Attempt net :=
  let n := drafts.length
  let pos := s.checkpoint.length
  if snapshotRequired cfg n = true ∧ io.snapshotOk = false then .fallthrough s
  else
    let v := verifyBatch be s.kv pos drafts io.verify
    match v.2 with
    | none      => microFails cfg s v.1 drafts io
    | some rows =>
      if cfg.exactReplay && haveFrontier cfg n io then
        let r := v.1.restoreIo s.kv.frontier io.restoreReplay
        if r.2 = false then commitVerified be cfg s r.1 [] rows drafts eos room io
        else
          let taken := drafts.take (commitDrafts rows drafts)
          let q := replayLoop be r.1 pos taken io.replay s.logits
          if q.2.2.2 then .done (commitTo s q.1 q.2.2.1 taken) (acceptLoop eos room taken)
          else commitVerified be cfg s q.1 q.2.1 rows drafts eos room io
      else commitVerified be cfg s v.1 drafts rows drafts eos room io

/-- The loop of the fallback: the session, the accepted drafts, the GPU logits, success. -/
def seqLoop (eos : Nat) : Session net → Nat → Nat → List Nat → (Nat → Call net) →
    Session net × List Nat × Option net.Logits × Bool
  | s, _, 0, _, _     => (s, [], none, true)
  | s, _, _ + 1, [], _ => (s, [], none, true)
  | s, top, room + 1, d :: ds, calls =>
    if top ≠ d then (s, [], none, true)
    else
      let r := decodeRow be s.kv s.checkpoint.length d (calls 0)
      match r.2 with
      | none     => ({ s with kv := r.1, checkpointValid := false }, [], none, false)
      | some row =>
        let s := { s with kv := r.1, checkpoint := s.checkpoint ++ [d] }
        if d = eos then (s, [d], some row, true)
        else
          let rest := seqLoop eos s (net.top row) room ds (fun i => calls (i + 1))
          (rest.1, d :: rest.2.1, rest.2.2.1.or (some row), rest.2.2.2)

/-- The fallback: one-token decode of the drafts as long as they are greedy. -/
def sequential (s : Session net) (drafts : List Nat) (eos room : Nat) (io : SpecIo net) :
    Attempt net :=
  let q := seqLoop be eos s (net.top s.logits) room drafts io.seq
  if q.2.2.2 = false then .error q.1
  else
    match q.2.2.1 with
    | none     => .done q.1 q.2.1
    | some row =>
      if io.seqRead then .done { q.1 with logits := row } q.2.1
      else .error { q.1 with checkpointValid := false }

/-! ### The call -/

/-- The margin skip is taken. -/
def skipsMargin (cfg : Config) (drafts : List Nat) (io : SpecIo net) : Bool :=
  !cfg.strictMtp && drafts.length = 2 && cfg.marginPositive && io.marginLow

/-- `use_decode2_exact` -/
def useDecode2Exact (cfg : Config) (drafts : List Nat) : Bool :=
  drafts.length = 2 && cfg.strictMtp && !cfg.batchVerify

/-- The drafts are verified in a batch. -/
def verifyDrafts (cfg : Config) (s : Session net) (drafts : List Nat) (eos room : Nat)
    (io : SpecIo net) : Attempt net :=
  if useDecode2Exact cfg drafts then
    decode2Exact be s (drafts.head?.getD 0) ((drafts.drop 1).head?.getD 0) room io
  else microBatch be cfg s drafts eos room io

/-- All ways to commit, in their order. -/
def commitAll (cfg : Config) (s : Session net) (drafts : List Nat) (eos room : Nat)
    (io : SpecIo net) : Attempt net :=
  if skipsMargin cfg drafts io then marginSkip be s (drafts.head?.getD 0) io
  else
    match verifyDrafts be cfg s drafts eos room io with
    | .done s accepted => .done s accepted
    | .error s         => .error s
    | .fallthrough s   => sequential be s drafts eos room io

/-- `ds4_session_eval_speculative_argmax`; `none` is an error. -/
def evalSpeculativeArgmax (cfg : Config) (s : Session net) (first : Nat) (maxTokens : Int)
    (eos : Nat) (acceptedCap : Int) (io : SpecIo net) : Session net × Option (List Nat) :=
  if cfg.cpu then
    if acceptedCap ≤ 0 then (s, some [])
    else
      let r := s.eval be cfg first io.eval
      (r.1, if r.2 then some [first] else none)
  else if maxTokens ≤ 0 ∨ acceptedCap ≤ 0 then (s, some [])
  else
    match specStart be cfg s first maxTokens eos acceptedCap io with
    | .returned s accepted => (s, accepted)
    | .drafted s drafts    =>
      match commitAll be cfg s drafts eos (acceptedCap.toNat - 1) io with
      | .done s accepted => (s, some (first :: accepted))
      | .error s         => (s, none)
      | .fallthrough s   => (s, some [first])

end DS4.Engine
