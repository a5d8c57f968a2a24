import DS4.Engine.Speculative

namespace DS4.Engine

/-!
# Engine — speculative decoding is greedy decoding

Every way to commit drafts is related to what repeated one-token decode produces.

* `greedy`, `Committed` — the greedy continuation of a history, and a session to which a first
  part of it has been committed.
* `Attempt.Exact` — an attempt commits exactly, fails with an invalid checkpoint, or hands the
  session over as it was.
* `Rows` is the invariant of the failure paths: whatever a failed verifier, restore or decode
  leaves behind, the rows of the committed history stay, so that a restore brings it back.
* `speculative_eq_greedy` — **exactness** of the call; `failed_replay_diverges` — a failed replay
  whose drafts are accepted all the same.
-/

variable {net : Network}

/-! ### Greedy decoding -/

/-- The next `k` tokens of repeated one-token decode. -/
def greedy (net : Network) : List Nat → Nat → List Nat
  | _, 0     => []
  | h, k + 1 => net.top (net.logits h) :: greedy net (h ++ [net.top (net.logits h)]) k

theorem greedy_length (h : List Nat) (k : Nat) : (greedy net h k).length = k := by
  induction k generalizing h with
  | zero => rfl
  | succ k ih => rw [greedy, List.length_cons, ih]

theorem greedy_take (h : List Nat) (c k : Nat) :
    (greedy net h k).take c = greedy net h (min c k) := by
  induction k generalizing h c with
  | zero =>
    rw [Nat.min_zero]
    exact List.take_nil
  | succ k ih =>
    cases c with
    | zero =>
      rw [Nat.zero_min]
      rfl
    | succ c =>
      have hmin : min (c + 1) (k + 1) = min c k + 1 := by omega
      rw [hmin, greedy, List.take_succ_cons, ih, greedy]

/-- **Verification.** The drafts that agree with the tops of the rows before them are greedy. -/
theorem agreeing_greedy {h : List Nat} {d : Nat} (ds : List Nat)
    (hd : d = net.top (net.logits h)) :
    (d :: ds).take (agreeing ((rowsOf net h (d :: ds)).map net.top) ds + 1)
      = greedy net h (agreeing ((rowsOf net h (d :: ds)).map net.top) ds + 1) := by
  induction ds generalizing h d with
  | nil =>
    subst hd
    rfl
  | cons d' ds ih =>
    rw [rowsOf, List.map_cons]
    show (d :: d' :: ds).take ((if net.top (net.logits (h ++ [d])) = d' then _ + 1 else 0) + 1) = _
    by_cases htop : net.top (net.logits (h ++ [d])) = d'
    · rw [agreeing, if_pos htop, List.take_succ_cons, ih htop.symm]
      subst hd
      rfl
    · rw [agreeing, if_neg htop]
      subst hd
      rfl

/-- The drafts of one call: the first is greedy, an end token is the last, and they fit. -/
structure DraftsFor (net : Network) (h : List Nat) (eos room : Nat) (drafts : List Nat) : Prop where
  head : drafts.head? = some (net.top (net.logits h))
  eos : ∀ t ∈ drafts.dropLast, t ≠ eos
  room : drafts.length ≤ room

/-- The session has taken `accepted`, a greedy continuation of `h` by at most `n` tokens: nothing follows an end token,
    and caches, logits and checkpoint are those of the longer history. -/
structure Committed (net : Network) (h : List Nat) (eos n : Nat) (s : Session net)
    (accepted : List Nat) : Prop where
  greedy : accepted = greedy net h accepted.length
  eos : ∀ t ∈ accepted.dropLast, t ≠ eos
  length : accepted.length ≤ n
  checkpoint : s.checkpoint = h ++ accepted
  holds : Holds net (h ++ accepted) s.kv
  logits : s.logits = net.logits (h ++ accepted)

/-- A way to commit is exact. -/
def Attempt.Exact (h : List Nat) (eos n : Nat) : Attempt net → Prop
  | .done s accepted => Committed net h eos n s accepted
  | .error s         => s.checkpointValid = false
  | .fallthrough s   => s.checkpoint = h ∧ Holds net h s.kv ∧ s.logits = net.logits h

variable {h drafts : List Nat} {eos room : Nat} {s : Session net} {io : SpecIo net}

theorem dropLast_take_subset {c : Nat} (hc : c ≤ drafts.length) {t : Nat}
    (ht : t ∈ (drafts.take c).dropLast) : t ∈ drafts.dropLast := by
  rw [List.dropLast_eq_take, List.length_take, Nat.min_eq_left hc, List.take_take] at ht
  rw [List.dropLast_eq_take]
  exact List.take_subset_take_left _ (by omega) ht

theorem acceptLoop_eq {ts : List Nat} (heos : ∀ t ∈ ts.dropLast, t ≠ eos)
    (hroom : ts.length ≤ room) : acceptLoop eos room ts = ts := by
  induction ts generalizing room with
  | nil => cases room <;> rfl
  | cons t ts ih =>
    cases room with
    | zero => exact absurd hroom (by simp)
    | succ room =>
      rw [List.length_cons] at hroom
      show (if t = eos then [t] else t :: acceptLoop eos room ts) = t :: ts
      cases ts with
      | nil =>
        have hnil : acceptLoop eos room [] = [] := by cases room <;> rfl
        rw [hnil]
        split <;> rfl
      | cons t' ts =>
        rw [List.dropLast_cons_cons] at heos
        rw [if_neg (heos t (by simp)), ih (fun x hx => heos x (by simp [hx])) (by omega)]

theorem eos_last_cons {t : Nat} {ts : List Nat} (ht : t ≠ eos) (hts : ∀ x ∈ ts.dropLast, x ≠ eos) :
    ∀ x ∈ (t :: ts).dropLast, x ≠ eos := by
  intro x hx
  cases ts with
  | nil => exact absurd hx (by simp)
  | cons t' ts =>
    rw [List.dropLast_cons_cons, List.mem_cons] at hx
    obtain rfl | hx := hx
    · exact ht
    · exact hts x hx

namespace DraftsFor

variable (hd : DraftsFor net h eos room drafts)

include hd

theorem ne_nil : drafts ≠ [] := by
  intro hnil
  have hh := hd.head
  rw [hnil] at hh
  exact absurd hh (by simp)

/-- What the verifier lets pass is greedy. -/
theorem take_greedy {c : Nat} (hc : c ≤ commitDrafts (rowsOf net h drafts) drafts) :
    drafts.take c = greedy net h c := by
  cases hdr : drafts with
  | nil => exact absurd hdr hd.ne_nil
  | cons d ds =>
    have hhead := hd.head
    rw [hdr] at hc hhead
    have hall := agreeing_greedy (h := h) ds (Option.some.inj hhead)
    have hc' : c ≤ agreeing ((rowsOf net h (d :: ds)).map net.top) ds + 1 := hc
    have htake := congrArg (List.take c) hall
    rw [List.take_take, Nat.min_eq_left hc', greedy_take, Nat.min_eq_left hc'] at htake
    exact htake

/-- Not more than all drafts pass. -/
theorem commit_le : commitDrafts (rowsOf net h drafts) drafts ≤ drafts.length := by
  have hle : ∀ (tops ds : List Nat), agreeing tops ds ≤ ds.length := by
    intro tops ds
    induction ds generalizing tops with
    | nil => cases tops <;> exact Nat.le_refl 0
    | cons d ds ih =>
      cases tops with
      | nil => exact Nat.zero_le _
      | cons top tops =>
        unfold agreeing
        split
        · have := ih tops
          rw [List.length_cons]
          omega
        · exact Nat.zero_le _
  have hpos := List.length_pos_of_ne_nil hd.ne_nil
  have hdrop := hle ((rowsOf net h drafts).map net.top) (drafts.drop 1)
  rw [List.length_drop] at hdrop
  unfold commitDrafts
  omega

/-- **Committing.** A session with the caches and the logits of `h` and a verified part of the
    drafts has committed that part. -/
theorem committed {c : Nat} (hc : c ≤ commitDrafts (rowsOf net h drafts) drafts)
    (hs : s.checkpoint = h) {kv : Kv net} {logits : net.Logits}
    (hk : Holds net (h ++ drafts.take c) kv) (hl : logits = net.logits (h ++ drafts.take c)) :
    Committed net h eos drafts.length (commitTo s kv logits (drafts.take c)) (drafts.take c) := by
  have hcn : c ≤ drafts.length := hc.trans hd.commit_le
  have hlen : (drafts.take c).length = c := by
    rw [List.length_take]
    omega
  refine ⟨?_, ?_, by omega, ?_, hk, hl⟩
  · rw [hlen]
    exact hd.take_greedy hc
  · exact fun t ht => hd.eos t (dropLast_take_subset hcn ht)
  · show s.checkpoint ++ drafts.take c = _
    rw [hs]

/-- The accept loops take all of a verified part. -/
theorem acceptLoop_take {c : Nat} (hc : c ≤ commitDrafts (rowsOf net h drafts) drafts) :
    acceptLoop eos room (drafts.take c) = drafts.take c := by
  have hcn : c ≤ drafts.length := hc.trans hd.commit_le
  have hroom := hd.room
  apply acceptLoop_eq
  · exact fun t ht => hd.eos t (dropLast_take_subset hcn ht)
  · rw [List.length_take]
    omega

end DraftsFor

/-! ### Rows under the calls of an attempt -/

/-- The rows of a history survive a batch for the tokens after it. -/
theorem rows_feed (be : Backend net) {kv : Kv net} {k : Nat} {ts : List Nat} (us : List Nat)
    (hr : Rows net h kv) (hroom : Lib.RingRoom net.rawCap net.rawWindow h.length k)
    (hk : Holds net (h ++ ts) kv) (hlen : ts.length + us.length ≤ k) :
    Rows net h (feed be kv (h ++ ts).length us).1 := by
  induction us generalizing ts kv with
  | nil => exact hr
  | cons u us ih =>
    rw [List.length_cons] at hlen
    have hdec := be.decode_spec (h ++ ts) kv u hk
    have hnext : Holds net (h ++ (ts ++ [u])) (be.decode kv (h ++ ts).length u).1 := by
      rw [hdec, ← List.append_assoc]
      exact holds_write hk u
    have hrows : Rows net h (be.decode kv (h ++ ts).length u).1 := by
      rw [hdec]
      exact rows_write u hr hroom hk (by omega)
    have hnlen : (ts ++ [u]).length = ts.length + 1 := by simp
    have hpos : (h ++ (ts ++ [u])).length = (h ++ ts).length + 1 := by simp; omega
    have hrest := ih hrows hnext (by omega)
    rw [hpos] at hrest
    exact hrest

variable {be : Backend net} {cfg : Config} {kv : Kv net}

/-- What the verifier computes from the caches of `h`. -/
theorem verifyBatch_ok (be : Backend net) (ts : List Nat) (hk : Holds net h kv) :
    Holds net (h ++ ts) (verifyBatch be kv h.length ts .ok).1 ∧
      (verifyBatch be kv h.length ts .ok).2 = some (rowsOf net h ts) :=
  ⟨holds_feed be hk ts, congrArg some (feed_rows be hk ts)⟩

/-- Whether the verifier succeeds or not, the rows of `h` stay. -/
theorem verifyBatch_rows (be : Backend net) (ts : List Nat) {k : Nat} (hk : Holds net h kv)
    (hroom : Lib.RingRoom net.rawCap net.rawWindow h.length k) (hlen : ts.length ≤ k)
    (c : Call net) : Rows net h (verifyBatch be kv h.length ts c).1 := by
  have hk' : Holds net (h ++ []) kv := by rwa [List.append_nil]
  cases c with
  | ok =>
    have hrows := rows_feed be ts hk.rows hroom hk' (by simpa using hlen)
    rwa [List.append_nil] at hrows
  | failed junk logits =>
    have hrows := rows_smash (n := ts.length) junk hk.rows hroom hk' (by simpa using hlen)
    rwa [List.append_nil] at hrows

/-- One decode from the caches of `h`. -/
theorem decodeRow_ok (be : Backend net) (hk : Holds net h kv) (t : Nat) :
    Holds net (h ++ [t]) (decodeRow be kv h.length t .ok).1 ∧
      (decodeRow be kv h.length t .ok).2 = some (net.logits (h ++ [t])) := by
  have hdec := be.decode_spec h kv t hk
  constructor
  · show Holds net (h ++ [t]) (be.decode kv h.length t).1
    rw [hdec]
    exact holds_write hk t
  · show some (be.decode kv h.length t).2 = _
    rw [hdec]

theorem decodeRow_rows (be : Backend net) {k : Nat} {ts : List Nat} (t : Nat) (hr : Rows net h kv)
    (hk : Holds net (h ++ ts) kv) (hroom : Lib.RingRoom net.rawCap net.rawWindow h.length k)
    (hlen : ts.length < k) (c : Call net) :
    Rows net h (decodeRow be kv (h ++ ts).length t c).1 := by
  cases c with
  | ok =>
    show Rows net h (be.decode kv (h ++ ts).length t).1
    rw [be.decode_spec (h ++ ts) kv t hk]
    exact rows_write t hr hroom hk hlen
  | failed junk logits => exact rows_smash junk hr hroom hk (by omega)

/-- The captured prefix is the state after the first draft. -/
theorem holds_prefix1 (be : Backend net) {d : Nat} {kv' : Kv net} (hk : Holds net h kv)
    (hr : Rows net (h ++ [d]) kv') : Holds net (h ++ [d]) (kv'.restore (prefix1 be kv h.length d)) := by
  unfold prefix1
  rw [be.decode_spec h kv d hk]
  exact holds_restore hr (holds_write hk d).fronts

/-- A batch keeps the rows of the history with its first token. -/
theorem rows_after_first (be : Backend net) (d : Nat) (ds : List Nat) {k : Nat}
    (hk : Holds net h kv) (hroom : Lib.RingRoom net.rawCap net.rawWindow h.length k)
    (hlen : (d :: ds).length ≤ k) : Rows net (h ++ [d]) (feed be kv h.length (d :: ds)).1 := by
  have hnext : Holds net (h ++ [d]) (be.decode kv h.length d).1 := by
    rw [be.decode_spec h kv d hk]
    exact holds_write hk d
  have hnext' : Holds net (h ++ [d] ++ []) (be.decode kv h.length d).1 := by
    rwa [List.append_nil]
  rw [List.length_cons] at hlen
  have hpos : (h ++ [d]).length = h.length + 1 := by simp
  have hrows := rows_feed be ds hnext.rows (k := ds.length)
    (hroom.mono (by omega) (by omega)) hnext' (by simp)
  rw [List.append_nil, hpos] at hrows
  exact hrows

/-! ### The attempts -/

/-- A restore that succeeds brings the caches of the history back. -/
theorem restoreIo_ok {saved : Kv net} (hr : Rows net h kv) (hk : Holds net h saved) :
    Holds net h (kv.restoreIo saved.frontier .ok).1 := holds_restore hr hk.fronts

/-- Whether a restore succeeds or not, it keeps the rows. -/
theorem restoreIo_rows (f : Frontier net) (hr : Rows net h kv) (io : RestoreIo net) :
    Rows net h (kv.restoreIo f io).1 := by
  cases io with
  | ok => exact (rows_restore f).mpr hr
  | failed f' => exact (rows_restore f').mpr hr

/-- The session before the verification: caches and logits of `h`. -/
structure Ready (net : Network) (h : List Nat) (s : Session net) : Prop where
  checkpoint : s.checkpoint = h
  holds : Holds net h s.kv
  logits : s.logits = net.logits h

/-- The fallback is entered with the session as it was, if the restore before it succeeds. -/
theorem restoreLast_exact {n : Nat} (hs : Ready net h s) (hr : Rows net h kv) (hio : io.restoreLast = .ok) :
    (restoreLast s kv io).Exact h eos n := by
  unfold restoreLast
  rw [hio]
  exact ⟨hs.checkpoint, restoreIo_ok hr hs.holds, hs.logits⟩

/-- **Margin skip.** -/
theorem marginSkip_exact (hs : Ready net h s) (hd : DraftsFor net h eos room drafts) :
    (marginSkip be s (drafts.head?.getD 0) io).Exact h eos drafts.length := by
  unfold marginSkip
  cases hdr : drafts with
  | nil => exact absurd hdr hd.ne_nil
  | cons d ds =>
    rw [hs.checkpoint]
    dsimp only [List.head?_cons, Option.getD_some]
    cases hcall : io.marginCall with
    | failed junk logits => rfl
    | ok =>
      obtain ⟨hk, hrow⟩ := decodeRow_ok be hs.holds d
      rw [hrow]
      have htake : drafts.take 1 = [d] := by rw [hdr]; rfl
      have hcom := hd.committed (c := 1) (Nat.le_add_left 1 _) hs.checkpoint
        (by rw [htake]; exact hk) (by rw [htake])
      rw [htake, hdr] at hcom
      exact hcom

/-- The exact replay keeps the rows of the history; if it succeeds, it has decoded all tokens. -/
theorem replayLoop_spec (be : Backend net) {k : Nat} {ts : List Nat} (us : List Nat)
    (calls : Nat → Call net) (row : net.Logits) (hr : Rows net h kv)
    (hroom : Lib.RingRoom net.rawCap net.rawWindow h.length k)
    (hk : Holds net (h ++ ts) kv) (hlen : ts.length + us.length ≤ k) :
    let q := replayLoop be kv (h ++ ts).length us calls row
    Rows net h q.1 ∧ (q.2.2.2 = true → q.2.1 = us ∧ Holds net (h ++ ts ++ us) q.1 ∧
      (us ≠ [] → q.2.2.1 = net.logits (h ++ ts ++ us))) := by
  induction us generalizing ts kv calls row with
  | nil => exact ⟨hr, fun _ => ⟨rfl, by rw [List.append_nil]; exact hk, fun hne => absurd rfl hne⟩⟩
  | cons u us ih =>
    rw [List.length_cons] at hlen
    dsimp only
    unfold replayLoop
    have hrows := decodeRow_rows be u hr hk hroom (by omega) (calls 0)
    cases hcall : calls 0 with
    | failed junk logits =>
      rw [hcall] at hrows
      exact ⟨hrows, fun hok => absurd hok (by simp [decodeRow])⟩
    | ok =>
      rw [hcall] at hrows
      obtain ⟨hnext, hrow⟩ := decodeRow_ok be hk u
      rw [List.append_assoc] at hnext
      have hpos : (h ++ (ts ++ [u])).length = (h ++ ts).length + 1 := by simp; omega
      have hnlen : (ts ++ [u]).length = ts.length + 1 := by simp
      have hrest := ih (fun i => calls (i + 1)) (net.logits (h ++ ts ++ [u])) hrows hnext (by omega)
      rw [hpos] at hrest
      dsimp only at hrest ⊢
      rw [hrow]
      dsimp only
      refine ⟨hrest.1, fun hok => ?_⟩
      obtain ⟨hpushed, hk', hlog⟩ := hrest.2 hok
      have hassoc : h ++ (ts ++ [u]) ++ us = h ++ ts ++ u :: us := by simp
      rw [hassoc] at hk' hlog
      refine ⟨by rw [hpushed], hk', fun _ => ?_⟩
      by_cases hus : us = []
      · subst hus
        rfl
      · exact hlog hus

/-! ### When an attempt is clean -/

/-- All drafts are committed from the rows of the verifier. -/
def FullCommit (rows : List net.Logits) (drafts : List Nat) (io : SpecIo net) : Prop :=
  commitDrafts rows drafts = drafts.length ∧ io.readRow = true

/-- The first of two drafts may be committed from the captured prefix. -/
def PrefixCase (cfg : Config) (rows : List net.Logits) (drafts : List Nat) : Prop :=
  drafts.length = 2 ∧ commitDrafts rows drafts = 1 ∧ capturesPrefix1 cfg drafts.length = true

/-- The exact replay is tried and does not finish. -/
def ReplayFails (be : Backend net) (cfg : Config) (s : Session net) (rows : List net.Logits)
    (drafts : List Nat) (io : SpecIo net) : Prop :=
  cfg.exactReplay = true ∧ haveFrontier cfg drafts.length io = true ∧
    (io.restoreReplay = .ok →
      (replayLoop be
        ((verifyBatch be s.kv s.checkpoint.length drafts io.verify).1.restore s.kv.frontier)
        s.checkpoint.length (drafts.take (commitDrafts rows drafts)) io.replay s.logits).2.2.2
        = false)

/-- Counters or frontiers are put back over the rows of the drafts. -/
def FrontierUsed (be : Backend net) (cfg : Config) (s : Session net) (drafts : List Nat)
    (io : SpecIo net) : Prop :=
  if useDecode2Exact cfg drafts then
    io.snapshotOk = true ∧
      ∀ rows, (verifyBatch be s.kv s.checkpoint.length drafts io.verify).2 = some rows →
        (rows.map net.top).head? ≠ (drafts.drop 1).head?
  else
    (snapshotRequired cfg drafts.length = true → io.snapshotOk = true) ∧
      ((verifyBatch be s.kv s.checkpoint.length drafts io.verify).2 = none →
        haveFrontier cfg drafts.length io = true) ∧
      ∀ rows, (verifyBatch be s.kv s.checkpoint.length drafts io.verify).2 = some rows →
        (FullCommit rows drafts io → cfg.exactReplay = true ∧
          haveFrontier cfg drafts.length io = true) ∧
        (haveFrontier cfg drafts.length io = true ∨ PrefixCase cfg rows drafts)

/-- **Clean attempts.**  Restored counters and frontiers find the rows of the window in place; the
    restore before the fallback succeeds; after a failed exact replay the drafts are not
    committed from what the verifier left. -/
structure VerifyClean (be : Backend net) (cfg : Config) (s : Session net) (drafts : List Nat)
    (eos room : Nat) (io : SpecIo net) : Prop where
  ring : FrontierUsed be cfg s drafts io →
    Lib.RingRoom net.rawCap net.rawWindow s.checkpoint.length drafts.length
  last : ∀ s', verifyDrafts be cfg s drafts eos room io = .fallthrough s' →
    io.snapshotOk = true → io.restoreLast = .ok
  replay : useDecode2Exact cfg drafts = false → ∀ rows,
    (verifyBatch be s.kv s.checkpoint.length drafts io.verify).2 = some rows →
      ReplayFails be cfg s rows drafts io →
        ¬ FullCommit rows drafts io ∧
          (io.restoreReplay = .ok → PrefixCase cfg rows drafts → io.commitPrefix = .ok →
            io.readRow0 = false)

/-! ### The batch verifiers -/

/-- **The exact pair.** -/
theorem decode2Exact_exact {d0 d1 : Nat} (hs : Ready net h s)
    (hd : DraftsFor net h eos room [d0, d1])
    (hring : io.snapshotOk = true →
      (∀ rows, (verifyBatch be s.kv s.checkpoint.length [d0, d1] io.verify).2 = some rows →
        (rows.map net.top).head? ≠ some d1) →
      Lib.RingRoom net.rawCap net.rawWindow h.length 2)
    (hlast : ∀ s', decode2Exact be s d0 d1 room io = .fallthrough s' → io.snapshotOk = true →
      io.restoreLast = .ok) :
    (decode2Exact be s d0 d1 room io).Exact h eos 2 := by
  unfold decode2Exact at hlast ⊢
  by_cases hsnap : io.snapshotOk = false
  · rw [if_pos hsnap]
    exact ⟨hs.checkpoint, hs.holds, hs.logits⟩
  rw [if_neg hsnap] at hlast ⊢
  rw [Bool.not_eq_false] at hsnap
  have hring' := hring hsnap
  rw [hs.checkpoint] at hring' hlast ⊢
  dsimp only at hlast ⊢
  cases hcall : io.verify with
  | failed junk logits =>
    rw [hcall] at hring' hlast
    have hroom := hring' (fun rows hrows => absurd hrows (by simp [verifyBatch]))
    exact restoreLast_exact hs (verifyBatch_rows be [d0, d1] hs.holds hroom (Nat.le_refl 2) _)
      (hlast _ rfl hsnap)
  | ok =>
    rw [hcall] at hring' hlast
    obtain ⟨hk, hrows⟩ := verifyBatch_ok be [d0, d1] hs.holds
    rw [hrows] at hring' hlast ⊢
    dsimp only at hlast ⊢
    by_cases htop : ((rowsOf net h [d0, d1]).map net.top).head? = some d1
    -- both drafts are greedy
    · rw [if_pos htop]
      have hcommit : commitDrafts (rowsOf net h [d0, d1]) [d0, d1] = 2 := by
        have htop' : net.top (net.logits (h ++ [d0])) = d1 := Option.some.inj htop
        show agreeing (net.top (net.logits (h ++ [d0])) :: _) [d1] + 1 = 2
        rw [agreeing, if_pos htop']
        rfl
      have hroom2 : 1 < room := hd.room
      rw [if_pos hroom2]
      exact hd.committed (c := 2) (Nat.le_of_eq hcommit.symm) hs.checkpoint hk
        (by unfold lastRow; rw [rowsOf_getLast h (by simp)]; rfl)
    · rw [if_neg htop] at hlast ⊢
      have hroom := hring' (fun rows hrow hhead => htop (by rw [Option.some.inj hrow]; exact hhead))
      have hrest := verifyBatch_rows be [d0, d1] hs.holds hroom (Nat.le_refl 2) .ok
      cases hpre : io.commitPrefix with
      | ok =>
        have hrows1 := rows_after_first be d0 [d1] hs.holds hroom (Nat.le_refl 2)
        exact hd.committed (c := 1) (Nat.le_add_left 1 _) hs.checkpoint
          (holds_prefix1 be hs.holds hrows1) rfl
      | failed f =>
        rw [hpre] at hlast
        exact restoreLast_exact hs ((rows_restore f).mpr hrest) (hlast _ rfl hsnap)

theorem microFails_exact {n : Nat} (hs : Ready net h s) {kv : Kv net}
    (hr : haveFrontier cfg drafts.length io = true → Rows net h kv)
    (hlast : haveFrontier cfg drafts.length io = true →
      ∀ s', microFails cfg s kv drafts io = .fallthrough s' → io.restoreLast = .ok) :
    (microFails cfg s kv drafts io).Exact h eos n := by
  unfold microFails at hlast ⊢
  split
  · rename_i hf
    rw [if_pos hf] at hlast
    exact restoreLast_exact hs (hr hf) (hlast hf _ rfl)
  · rfl

/-- **Partial commits.** -/
theorem commitPartial_exact (hs : Ready net h s) (hd : DraftsFor net h eos room drafts)
    {kv : Kv net} {rows : List net.Logits} (hrows : rows = rowsOf net h drafts)
    (hring : haveFrontier cfg drafts.length io = true ∨ PrefixCase cfg rows drafts →
      Lib.RingRoom net.rawCap net.rawWindow h.length drafts.length ∧ Rows net h kv)
    (hfirst : PrefixCase cfg rows drafts → io.commitPrefix = .ok → io.readRow0 = true →
      ∀ d ds, drafts = d :: ds → Rows net (h ++ [d]) kv)
    (hlast : haveFrontier cfg drafts.length io = true →
      ∀ s', commitPartial be cfg s kv rows drafts eos room io = .fallthrough s' →
        io.restoreLast = .ok) :
    (commitPartial be cfg s kv rows drafts eos room io).Exact h eos drafts.length := by
  unfold commitPartial at hlast ⊢
  dsimp only at hlast ⊢
  have hne := hd.ne_nil
  obtain ⟨d, ds, hdr⟩ : ∃ d ds, drafts = d :: ds := by
    cases hdr : drafts with
    | nil => exact absurd hdr hne
    | cons d ds => exact ⟨d, ds, rfl⟩
  have hhead : drafts.head?.getD 0 = d := by rw [hdr]; rfl
  have htake1 : drafts.take 1 = [d] := by rw [hdr]; rfl
  have hcommit1 : 1 ≤ commitDrafts (rowsOf net h drafts) drafts := Nat.le_add_left 1 _
  rw [hhead, hs.checkpoint] at hlast ⊢
  by_cases hpre : drafts.length = 2 ∧ commitDrafts rows drafts = 1 ∧
      capturesPrefix1 cfg drafts.length = true
  -- the captured prefix
  · rw [if_pos hpre] at hlast ⊢
    obtain ⟨hroom, hr⟩ := hring (Or.inr hpre)
    have hfail := restoreIo_rows (prefix1 be s.kv h.length d) hr io.commitPrefix
    by_cases hok : (kv.restoreIo (prefix1 be s.kv h.length d) io.commitPrefix).2 = true ∧
        io.readRow0 = true
    · rw [if_pos (by rw [hok.1, hok.2]; rfl)]
      obtain ⟨hokc, hok0⟩ := hok
      cases hc : io.commitPrefix with
      | failed f =>
        rw [hc] at hokc
        exact absurd hokc (by simp [Kv.restoreIo])
      | ok =>
        have hrow : rows.head?.getD s.logits = net.logits (h ++ [d]) := by
          rw [hrows, hdr]
          rfl
        have hk := holds_prefix1 be hs.holds (hfirst hpre hc hok0 d ds hdr)
        have hcom := hd.committed (c := 1) hcommit1 hs.checkpoint
          (by rw [htake1]; exact hk) (by rw [htake1])
        rw [htake1] at hcom
        rw [hrow]
        exact hcom
    · rw [if_neg (by rwa [Bool.and_eq_true])] at hlast ⊢
      exact microFails_exact hs (fun _ => hfail) hlast
  rw [if_neg hpre] at hlast ⊢
  by_cases hf : haveFrontier cfg drafts.length io = false
  · rw [if_pos hf] at hlast ⊢
    exact microFails_exact hs (fun h => absurd h (by simp [hf])) hlast
  rw [if_neg hf] at hlast ⊢
  rw [Bool.not_eq_false] at hf
  obtain ⟨hroom, hr⟩ := hring (Or.inl hf)
  have hfail := restoreIo_rows s.kv.frontier hr io.restore
  cases hc : io.restore with
  | failed f =>
    rw [hc] at hlast hfail
    exact microFails_exact hs (fun _ => hfail) hlast
  | ok =>
    rw [hc] at hlast
    have hk := restoreIo_ok hr hs.holds
    have hk' : Holds net (h ++ []) (kv.restoreIo s.kv.frontier .ok).1 := by
      rwa [List.append_nil]
    rw [if_neg (by simp [Kv.restoreIo])] at hlast ⊢
    by_cases hone : drafts.length = 2 ∧ commitDrafts rows drafts = 1
    -- one draft is decoded again
    · rw [if_pos hone] at hlast ⊢
      have hsmash := decodeRow_rows be d hk.rows hk' hroom (by simp; omega) io.replayOne
      rw [List.append_nil] at hsmash
      cases hq : io.replayOne with
      | failed junk logits =>
        rw [hq] at hlast hsmash
        exact microFails_exact hs (fun _ => hsmash) hlast
      | ok =>
        obtain ⟨hk1, hrow⟩ := decodeRow_ok be hk d
        rw [hrow]
        have hcom := hd.committed (c := 1) hcommit1 hs.checkpoint
          (by rw [htake1]; exact hk1) (by rw [htake1])
        rw [htake1] at hcom
        exact hcom
    -- the verified part is verified again
    · rw [if_neg hone] at hlast ⊢
      have hcn : commitDrafts rows drafts ≤ drafts.length := by
        rw [hrows]
        exact hd.commit_le
      have hsmash := verifyBatch_rows be (drafts.take (commitDrafts rows drafts)) hk hroom
        (by rw [List.length_take]; omega) io.reverify
      cases hq : io.reverify with
      | failed junk logits =>
        rw [hq] at hlast hsmash
        exact microFails_exact hs (fun _ => hsmash) hlast
      | ok =>
        rw [hq] at hlast hsmash
        obtain ⟨hk1, hagain⟩ := verifyBatch_ok be (drafts.take (commitDrafts rows drafts)) hk
        rw [hagain] at hlast ⊢
        dsimp only at hlast ⊢
        split
        · have hcle : commitDrafts rows drafts ≤ commitDrafts (rowsOf net h drafts) drafts := by
            rw [hrows]
          have hpos : drafts.take (commitDrafts rows drafts) ≠ [] := by
            rw [hdr]
            simp [commitDrafts]
          rw [hd.acceptLoop_take hcle]
          exact hd.committed hcle hs.checkpoint hk1
            (by unfold lastRow; rw [rowsOf_getLast h hpos]; rfl)
        · rename_i hread
          rw [if_neg hread] at hlast
          exact microFails_exact hs (fun _ => hsmash) hlast

/-- After the verifier: all drafts at once, or a partial commit. -/
theorem commitVerified_exact (hs : Ready net h s) (hd : DraftsFor net h eos room drafts)
    {kv : Kv net} {pushed : List Nat} {rows : List net.Logits} (hrows : rows = rowsOf net h drafts)
    (hfull : FullCommit rows drafts io → pushed = drafts ∧ Holds net (h ++ drafts) kv)
    (hring : ¬ FullCommit rows drafts io →
      haveFrontier cfg drafts.length io = true ∨ PrefixCase cfg rows drafts →
        Lib.RingRoom net.rawCap net.rawWindow h.length drafts.length ∧ Rows net h kv)
    (hfirst : PrefixCase cfg rows drafts → io.commitPrefix = .ok → io.readRow0 = true →
      ∀ d ds, drafts = d :: ds → Rows net (h ++ [d]) kv)
    (hlast : haveFrontier cfg drafts.length io = true →
      ∀ s', commitVerified be cfg s kv pushed rows drafts eos room io = .fallthrough s' →
        io.restoreLast = .ok) :
    (commitVerified be cfg s kv pushed rows drafts eos room io).Exact h eos drafts.length := by
  unfold commitVerified at hlast ⊢
  by_cases hfc : commitDrafts rows drafts = drafts.length ∧ io.readRow = true
  · rw [if_pos hfc]
    obtain ⟨rfl, hk⟩ := hfull hfc
    have hle : pushed.length ≤ commitDrafts (rowsOf net h pushed) pushed := by
      rw [← hrows, hfc.1]
    have htake : pushed.take pushed.length = pushed := List.take_length
    have hacc := hd.acceptLoop_take hle
    have hcom := hd.committed hle hs.checkpoint (by rw [htake]; exact hk) rfl
    rw [htake] at hacc hcom
    rw [hacc, hrows]
    unfold lastRow
    rw [rowsOf_getLast h hd.ne_nil]
    exact hcom
  · rw [if_neg hfc] at hlast ⊢
    exact commitPartial_exact hs hd hrows (hring hfc) hfirst hlast

/-- **The micro batch.** -/
theorem microBatch_exact (hs : Ready net h s) (hd : DraftsFor net h eos room drafts)
    (hdec : useDecode2Exact cfg drafts = false) (hclean : VerifyClean be cfg s drafts eos room io) :
    (microBatch be cfg s drafts eos room io).Exact h eos drafts.length := by
  obtain ⟨hring, hlast, hreplay⟩ := hclean
  have hreplay' := hreplay hdec
  unfold FrontierUsed at hring
  unfold verifyDrafts at hlast
  rw [hdec] at hring hlast
  rw [if_neg (by simp)] at hring
  rw [if_neg (by simp)] at hlast
  unfold microBatch at hlast ⊢
  by_cases hsnap : snapshotRequired cfg drafts.length = true ∧ io.snapshotOk = false
  · rw [if_pos hsnap]
    exact ⟨hs.checkpoint, hs.holds, hs.logits⟩
  rw [if_neg hsnap] at hlast ⊢
  have hsnap' : snapshotRequired cfg drafts.length = true → io.snapshotOk = true := by
    intro hreq
    rw [← Bool.not_eq_false]
    exact fun hno => hsnap ⟨hreq, hno⟩
  have hfrontier : haveFrontier cfg drafts.length io = true → io.snapshotOk = true := by
    intro hf
    unfold haveFrontier at hf
    rw [Bool.and_eq_true] at hf
    exact hf.2
  rw [hs.checkpoint] at hring hlast hreplay' ⊢
  dsimp only at hlast ⊢
  have hring' := fun h => hring ⟨hsnap', h⟩
  cases hcall : io.verify with
  | failed junk logits =>
    rw [hcall] at hring' hlast
    apply microFails_exact hs
    · intro hf
      have hroom := hring' ⟨fun _ => hf, fun rows hrows => absurd hrows (by simp [verifyBatch])⟩
      exact verifyBatch_rows be drafts hs.holds hroom (Nat.le_refl _) _
    · exact fun hf s' heq => hlast s' heq (hfrontier hf)
  | ok =>
    rw [hcall] at hring' hlast hreplay'
    obtain ⟨hk, hrows⟩ := verifyBatch_ok be drafts hs.holds
    rw [hrows] at hring' hlast ⊢
    dsimp only at hlast ⊢
    have hreplay' := hreplay' _ hrows
    -- the rows are used again unless all drafts are committed at once
    have hroom : (FullCommit (rowsOf net h drafts) drafts io → cfg.exactReplay = true ∧
          haveFrontier cfg drafts.length io = true) →
        haveFrontier cfg drafts.length io = true ∨ PrefixCase cfg (rowsOf net h drafts) drafts →
        Lib.RingRoom net.rawCap net.rawWindow h.length drafts.length := by
      intro hfull hused
      refine hring' ⟨fun h => absurd h (by simp), fun rows hrow => ?_⟩
      obtain rfl := Option.some.inj hrow
      exact ⟨hfull, hused⟩
    by_cases htried : cfg.exactReplay = true ∧ haveFrontier cfg drafts.length io = true
    · rw [if_pos (by rw [htried.1, htried.2]; rfl)] at hlast ⊢
      have hroom' := hroom (fun _ => htried) (Or.inl htried.2)
      have hkept := verifyBatch_rows be drafts hs.holds hroom' (Nat.le_refl _) .ok
      cases hc : io.restoreReplay with
      -- the restore fails: the rows are still those of the verifier
      | failed f =>
        rw [hc] at hlast
        obtain ⟨hnot, -⟩ := hreplay' ⟨htried.1, htried.2, fun h => absurd h (by simp [hc])⟩
        apply commitVerified_exact hs hd rfl
        · exact fun hfc => absurd hfc hnot
        · exact fun _ _ => ⟨hroom', (rows_restore f).mpr hkept⟩
        · intro _ _ _ d ds hdr
          subst hdr
          exact (rows_restore f).mpr (rows_after_first be d ds hs.holds hroom' (Nat.le_refl _))
        · exact fun hf s' heq => hlast s' heq (hfrontier hf)
      | ok =>
        rw [hc] at hlast
        have hback := restoreIo_ok hkept hs.holds
        have hback' : Holds net (h ++ [])
            ((verifyBatch be s.kv h.length drafts .ok).1.restoreIo s.kv.frontier .ok).1 := by
          rwa [List.append_nil]
        have hq := replayLoop_spec be (drafts.take (commitDrafts (rowsOf net h drafts) drafts))
          io.replay s.logits hback.rows hroom' hback' (by simp)
        rw [List.append_nil] at hq
        dsimp only at hq
        obtain ⟨hkeptq, hdone⟩ := hq
        rw [if_neg (by simp [Kv.restoreIo])] at hlast ⊢
        by_cases hok : (replayLoop be
            ((verifyBatch be s.kv h.length drafts .ok).1.restoreIo s.kv.frontier .ok).1 h.length
            (drafts.take (commitDrafts (rowsOf net h drafts) drafts)) io.replay s.logits).2.2.2 = true
        · rw [if_pos hok]
          obtain ⟨-, hkq, hrow⟩ := hdone hok
          have hpos : drafts.take (commitDrafts (rowsOf net h drafts) drafts) ≠ [] := by
            obtain ⟨d, ds, hdr⟩ := List.exists_cons_of_ne_nil hd.ne_nil
            rw [hdr]
            simp [commitDrafts]
          rw [hd.acceptLoop_take (Nat.le_refl _)]
          exact hd.committed (Nat.le_refl _) hs.checkpoint hkq (hrow hpos)
        -- a decode of the replay fails
        · rw [if_neg hok] at hlast ⊢
          obtain ⟨hnot, hunread⟩ := hreplay'
            ⟨htried.1, htried.2, fun _ => by
              rw [hs.checkpoint, hcall]
              exact Bool.eq_false_iff.mpr hok⟩
          apply commitVerified_exact hs hd rfl
          · exact fun hfc => absurd hfc hnot
          · exact fun _ _ => ⟨hroom', hkeptq⟩
          · intro hcase hpre hread
            rw [hunread hc hcase hpre] at hread
            exact absurd hread (by simp)
          · exact fun hf s' heq => hlast s' heq (hfrontier hf)
    · rw [if_neg (by rwa [Bool.and_eq_true])] at hlast ⊢
      apply commitVerified_exact hs hd rfl
      · exact fun _ => ⟨rfl, hk⟩
      · intro hnot hused
        have hroom' := hroom (fun hfc => absurd hfc hnot) hused
        exact ⟨hroom', verifyBatch_rows be drafts hs.holds hroom' (Nat.le_refl _) .ok⟩
      · intro hcase _ _ d ds hdr
        have hnot : ¬ FullCommit (rowsOf net h drafts) drafts io := by
          intro hfc
          have h1 := hcase.1
          have h2 := hcase.2.1
          have h3 := hfc.1
          omega
        have hroom' := hroom (fun hfc => absurd hfc hnot) (Or.inr hcase)
        subst hdr
        exact rows_after_first be d ds hs.holds hroom' (Nat.le_refl _)
      · exact fun hf s' heq => hlast s' heq (hfrontier hf)

/-! ### The fallback -/

theorem Committed.none (eos n : Nat) (hk : Holds net s.checkpoint s.kv) :
    Committed net s.checkpoint eos n { s with logits := net.logits (s.checkpoint ++ []) } [] := by
  refine ⟨rfl, by simp, Nat.zero_le _, (List.append_nil _).symm, ?_, rfl⟩
  rw [List.append_nil]
  exact hk

/-- The sequential loop accepts greedy drafts as long as it goes, from any session whose caches
    hold the checkpoint. -/
theorem seqLoop_spec (be : Backend net) (ds : List Nat) (calls : Nat → Call net)
    (hk : Holds net s.checkpoint s.kv) (room : Nat) :
    let q := seqLoop be eos s (net.top (net.logits s.checkpoint)) room ds calls
    (q.2.2.2 = false → q.1.checkpointValid = false) ∧
      (q.2.2.2 = true → Committed net s.checkpoint eos ds.length
          { q.1 with logits := net.logits (s.checkpoint ++ q.2.1) } q.2.1 ∧
        q.1.logits = s.logits ∧ (q.2.1 = [] → q.2.2.1 = none) ∧
        (q.2.1 ≠ [] → q.2.2.1 = some (net.logits (s.checkpoint ++ q.2.1)))) := by
  induction ds generalizing s room calls with
  | nil =>
    have hnil := Committed.none eos 0 hk
    cases room <;> exact ⟨fun h => absurd h (by simp [seqLoop]), fun _ => ⟨hnil, rfl, fun _ => rfl, fun h => absurd rfl h⟩⟩
  | cons d ds ih =>
    have hnil := Committed.none eos (d :: ds).length hk
    cases room with
    | zero => exact ⟨fun h => absurd h (by simp [seqLoop]), fun _ => ⟨hnil, rfl, fun _ => rfl, fun h => absurd rfl h⟩⟩
    | succ room =>
      unfold seqLoop
      by_cases htop : net.top (net.logits s.checkpoint) = d
      · rw [if_neg (by simpa using htop)]
        cases hcall : calls 0 with
        | failed junk logits =>
          exact ⟨fun _ => rfl, fun h => absurd h (by simp [decodeRow])⟩
        | ok =>
          obtain ⟨hk1, hrow⟩ := decodeRow_ok be hk d
          dsimp only
          rw [hrow]
          dsimp only
          have hone : (s.checkpoint ++ [d]) = s.checkpoint ++ greedy net s.checkpoint 1 := by
            rw [greedy, htop]
            rfl
          by_cases heos : d = eos
          -- the end token is the last one accepted
          · rw [if_pos heos]
            refine ⟨fun h => absurd h (by simp), fun _ => ⟨⟨?_, by simp, by simp, rfl, hk1, rfl⟩,
              rfl, fun h => absurd h (by simp), fun _ => rfl⟩⟩
            show [d] = greedy net s.checkpoint 1
            exact List.append_cancel_left hone
          · rw [if_neg heos]
            obtain ⟨hbad, hgood⟩ := @ih
              { s with kv := (decodeRow be s.kv s.checkpoint.length d .ok).1
                       checkpoint := s.checkpoint ++ [d] } (fun i => calls (i + 1)) hk1 room
            refine ⟨hbad, fun hok => ?_⟩
            obtain ⟨hcom, hlog, hnone, hsome⟩ := hgood hok
            obtain ⟨hgreedy, hlasteos, hlen, hcp, hkv, -⟩ := hcom
            dsimp only at hgreedy hlasteos hlen hcp hkv hlog hnone hsome ⊢
            rw [List.append_assoc, List.singleton_append] at hcp hkv
            refine ⟨⟨?_, ?_, ?_, hcp, hkv, rfl⟩, hlog, fun h => absurd h (by simp), fun _ => ?_⟩
            · rw [List.length_cons, greedy, htop]
              exact congrArg (d :: ·) hgreedy
            · exact eos_last_cons heos hlasteos
            · rw [List.length_cons, List.length_cons]
              omega
            · by_cases hmore : (seqLoop be eos
                  { s with kv := (decodeRow be s.kv s.checkpoint.length d .ok).1
                           checkpoint := s.checkpoint ++ [d] }
                  (net.top (net.logits (s.checkpoint ++ [d]))) room ds
                  (fun i => calls (i + 1))).2.1 = []
              · rw [hnone hmore, hmore]
                rfl
              · rw [hsome hmore, List.append_assoc]
                rfl
      · rw [if_pos htop]
        exact ⟨fun h => absurd h (by simp), fun _ => ⟨hnil, rfl, fun _ => rfl, fun h => absurd rfl h⟩⟩

/-- **The fallback.** -/
theorem sequential_exact (be : Backend net) (hs : Ready net h s) :
    (sequential be s drafts eos room io).Exact h eos drafts.length := by
  obtain ⟨rfl, hk, hl⟩ := hs
  obtain ⟨hbad, hgood⟩ := seqLoop_spec be drafts io.seq hk room
  unfold sequential
  rw [hl]
  dsimp only at hbad hgood ⊢
  by_cases hok : (seqLoop be eos s (net.top (net.logits s.checkpoint)) room drafts io.seq).2.2.2
      = false
  · rw [if_pos hok]
    exact hbad hok
  rw [if_neg hok]
  rw [Bool.not_eq_false] at hok
  obtain ⟨hcom, hlog, hempty, hmore⟩ := hgood hok
  by_cases hnone : (seqLoop be eos s (net.top (net.logits s.checkpoint)) room drafts io.seq).2.1 = []
  · rw [hempty hnone]
    obtain ⟨h1, h2, h3, h4, h5, -⟩ := hcom
    refine ⟨h1, h2, h3, h4, h5, ?_⟩
    rw [hlog, hl, hnone, List.append_nil]
  · rw [hmore hnone]
    dsimp only
    split
    · exact hcom
    · rfl

/-! ### The call -/

/-- The recursive drafts are within the budget, and an end token is the last one. -/
theorem draftLoop_spec {budget : Nat} {drafter : List (Option Nat)} {ds : List Nat}
    (hds : draftLoop eos budget drafter = some ds) :
    ds.length ≤ budget ∧ ∀ t ∈ ds.dropLast, t ≠ eos := by
  induction budget generalizing drafter ds with
  | zero =>
    have hnil : ds = [] := (Option.some.inj hds).symm
    subst hnil
    exact ⟨Nat.le_refl 0, by simp⟩
  | succ budget ih =>
    cases drafter with
    | nil => exact absurd hds (by simp [draftLoop])
    | cons o drafter =>
      cases o with
      | none => exact absurd hds (by simp [draftLoop])
      | some t =>
        unfold draftLoop at hds
        split at hds
        · obtain rfl := Option.some.inj hds
          exact ⟨by simp, by simp⟩
        · rename_i hne
          obtain ⟨rest, hrest, rfl⟩ := Option.map_eq_some_iff.mp hds
          obtain ⟨hlen, heos⟩ := ih hrest
          exact ⟨by rw [List.length_cons]; omega, eos_last_cons hne heos⟩

/-- A successful eval leaves the caches and the logits of one token more. -/
theorem eval_ready (be : Backend net) (cfg : Config) {s : Session net} {first : Nat}
    {io : Session.EvalIo net} (hk : Holds net s.checkpoint s.kv)
    (hok : (s.eval be cfg first io).2 = true) :
    Ready net (s.checkpoint ++ [first]) (s.eval be cfg first io).1 := by
  have htok : ∀ s0 : Session net, s0.checkpoint = s.checkpoint → s0.kv = s.kv →
      Ready net (s.checkpoint ++ [first]) (s0.evalToken be first .ok).1 := by
    intro s0 hcp hkv
    have hk0 : Holds net s0.checkpoint s0.kv := by
      rw [hcp, hkv]
      exact hk
    obtain ⟨hk1, hl1⟩ : (s0.evalToken be first .ok).1.Coherent := Session.evalToken_ok hk0 first
    have hcp1 : (s0.evalToken be first .ok).1.checkpoint = s.checkpoint ++ [first] := by
      rw [← hcp]
      rfl
    rw [hcp1] at hk1 hl1
    exact ⟨hcp1, hk1, hl1⟩
  unfold Session.eval at hok ⊢
  by_cases hcpu : cfg.cpu = true
  · rw [if_pos hcpu]
    obtain ⟨h1, h2, h3⟩ := htok s rfl rfl
    exact ⟨h1, h2, h3⟩
  rw [if_neg hcpu] at hok ⊢
  obtain ⟨h1, h2, h3⟩ := htok { s with mtpDraft := none } rfl rfl
  cases hcall : io.call with
  | ok =>
    dsimp only
    split
    · exact ⟨h1, h2, h3⟩
    · exact ⟨h1, h2, h3⟩
  | failed junk logits =>
    rw [hcall] at hok
    exact absurd hok (by simp [Session.evalToken])

/-- A failed eval invalidates the checkpoint. -/
theorem eval_failed (be : Backend net) (cfg : Config) {s : Session net} {first : Nat}
    {io : Session.EvalIo net} (hbad : (s.eval be cfg first io).2 = false) :
    (s.eval be cfg first io).1.checkpointValid = false := by
  unfold Session.eval at hbad ⊢
  by_cases hcpu : cfg.cpu = true
  · rw [if_pos hcpu] at hbad
    exact absurd hbad (by simp)
  rw [if_neg hcpu] at hbad ⊢
  cases hcall : io.call with
  | ok =>
    rw [hcall] at hbad
    dsimp only at hbad
    split at hbad <;> exact absurd hbad (by simp [Session.evalToken])
  | failed junk logits => rfl

/-- **The part before the verification.** -/
theorem specStart_spec (be : Backend net) (cfg : Config) {s : Session net} (first : Nat)
    (maxTokens : Int) (eos : Nat) (acceptedCap : Int) (io : SpecIo net)
    (hk : Holds net s.checkpoint s.kv) :
    match specStart be cfg s first maxTokens eos acceptedCap io with
    | .returned s' none => s'.checkpointValid = false ∨ Ready net (s.checkpoint ++ [first]) s'
    | .returned s' (some accepted) =>
      accepted = [first] ∧ Ready net (s.checkpoint ++ [first]) s'
    | .drafted s' drafts =>
      first ≠ eos ∧ Ready net (s.checkpoint ++ [first]) s' ∧
        DraftsFor net (s.checkpoint ++ [first]) eos (acceptedCap.toNat - 1) drafts ∧
        drafts.length ≤ maxTokens.toNat - 1 := by
  unfold specStart
  dsimp only
  by_cases hbad : (s.eval be cfg first io.eval).2 = false
  · rw [if_pos hbad]
    exact Or.inl (eval_failed be cfg hbad)
  rw [if_neg hbad]
  rw [Bool.not_eq_false] at hbad
  have hready := eval_ready be cfg hk hbad
  generalize (s.eval be cfg first io.eval).1 = s1 at hready ⊢
  by_cases hend : first = eos ∨ maxTokens = 1 ∨ acceptedCap ≤ 1
  · rw [if_pos hend]
    exact ⟨rfl, hready⟩
  rw [if_neg hend]
  cases hdraft : s1.mtpDraft with
  | none => exact ⟨rfl, hready⟩
  | some d =>
    dsimp only
    by_cases hmtp : cfg.mtpReady = false ∨ cfg.mtpDraftTokens ≤ 1
    · rw [if_pos hmtp]
      exact ⟨rfl, hready⟩
    rw [if_neg hmtp]
    by_cases hcap : draftCap cfg s1 maxTokens acceptedCap = 0
    · rw [if_pos hcap]
      exact ⟨rfl, hready⟩
    rw [if_neg hcap]
    by_cases hgrow : io.growOk = false
    · rw [if_pos hgrow]
      exact Or.inr hready
    rw [if_neg hgrow]
    obtain ⟨hcp, hkv, hlog⟩ := hready
    have hready' : Ready net (s.checkpoint ++ [first]) { s1 with mtpDraft := none } := ⟨hcp, hkv, hlog⟩
    by_cases hmiss : net.top s1.logits ≠ d
    · rw [if_pos hmiss]
      exact ⟨rfl, hready'⟩
    rw [if_neg hmiss]
    rw [Decidable.not_not] at hmiss
    cases hloop : draftLoop eos (if d = eos then 0 else draftCap cfg s1 maxTokens acceptedCap - 1)
        io.drafter with
    | none => exact ⟨rfl, hready'⟩
    | some ds =>
      obtain ⟨hlen, heos⟩ := draftLoop_spec hloop
      have hbudget : ds.length + 1 ≤ draftCap cfg s1 maxTokens acceptedCap := by
        split at hlen <;> omega
      unfold draftCap at hbudget
      refine ⟨fun h => hend (Or.inl h), hready', ⟨?_, ?_, by rw [List.length_cons]; omega⟩,
        by rw [List.length_cons]; omega⟩
      · show some d = _
        rw [← hmiss, hlog]
      · intro t ht
        cases ds with
        | nil => exact absurd ht (by simp)
        | cons d' ds =>
          rw [List.dropLast_cons_cons, List.mem_cons] at ht
          obtain rfl | ht := ht
          -- after an end token nothing is drafted
          · intro heq
            rw [if_pos heq] at hlen
            exact absurd hlen (by simp)
          · exact heos t ht

/-- **All ways to commit.** -/
theorem commitAll_exact (hs : Ready net h s) (hd : DraftsFor net h eos room drafts)
    (hclean : skipsMargin cfg drafts io = false → VerifyClean be cfg s drafts eos room io) :
    (commitAll be cfg s drafts eos room io).Exact h eos drafts.length := by
  unfold commitAll
  split
  · exact marginSkip_exact hs hd
  rename_i hskip
  have hclean := hclean (Bool.eq_false_iff.mpr hskip)
  have hverify : (verifyDrafts be cfg s drafts eos room io).Exact h eos drafts.length := by
    by_cases hdec : useDecode2Exact cfg drafts = true
    · have hlen : drafts.length = 2 := by
        simp only [useDecode2Exact, Bool.and_eq_true, decide_eq_true_eq] at hdec
        exact hdec.1.1
      obtain ⟨d0, d1, hdr⟩ := List.length_eq_two.mp hlen
      subst hdr
      obtain ⟨hring, hlast, -⟩ := hclean
      unfold FrontierUsed at hring
      unfold verifyDrafts at hlast ⊢
      rw [if_pos hdec] at hring hlast ⊢
      rw [hs.checkpoint] at hring
      apply decode2Exact_exact hs hd
      · intro hsnap hrow
        rw [hs.checkpoint] at hrow
        exact hring ⟨hsnap, hrow⟩
      · exact hlast
    · have hmicro := microBatch_exact hs hd (Bool.eq_false_iff.mpr hdec) hclean
      unfold verifyDrafts
      rw [if_neg hdec]
      exact hmicro
  cases hv : verifyDrafts be cfg s drafts eos room io with
  | done s' accepted =>
    rw [hv] at hverify
    exact hverify
  | error s' =>
    rw [hv] at hverify
    exact hverify
  | fallthrough s' =>
    rw [hv] at hverify
    exact sequential_exact be ⟨hverify.1, hverify.2.1, hverify.2.2⟩

/-- The condition on a call: on the CPU the token limit is positive, and on the GPU the batch
    verification, if there is one, is clean. -/
def SpecClean (be : Backend net) (cfg : Config) (s : Session net) (first : Nat) (maxTokens : Int)
    (eos : Nat) (acceptedCap : Int) (io : SpecIo net) : Prop :=
  (cfg.cpu = true → 0 < maxTokens) ∧
    ∀ s' drafts, specStart be cfg s first maxTokens eos acceptedCap io = .drafted s' drafts →
      skipsMargin cfg drafts io = false →
        VerifyClean be cfg s' drafts eos (acceptedCap.toNat - 1) io

/-- The accepted tokens are the first one and a greedy continuation, nothing follows an end token,
    both limits are kept, and checkpoint, caches and logits are those of the old tokens with
    exactly the accepted ones. -/
structure GreedyResult (net : Network) (old : List Nat) (first : Nat) (maxTokens : Int) (eos : Nat)
    (acceptedCap : Int) (s' : Session net) (accepted : List Nat) : Prop where
  tokens : accepted = first :: greedy net (old ++ [first]) (accepted.length - 1)
  eos : ∀ t ∈ accepted.dropLast, t ≠ eos
  max : (accepted.length : Int) ≤ maxTokens
  cap : (accepted.length : Int) ≤ acceptedCap
  checkpoint : s'.checkpoint = old ++ accepted
  holds : Holds net (old ++ accepted) s'.kv
  logits : s'.logits = net.logits (old ++ accepted)

/-- The result of a call that accepts the first token alone. -/
theorem Ready.single {old : List Nat} {first : Nat} {maxTokens acceptedCap : Int} {s' : Session net}
    (hs : Ready net (old ++ [first]) s') (hmax : 0 < maxTokens) (hcap : 0 < acceptedCap) :
    GreedyResult net old first maxTokens eos acceptedCap s' [first] :=
  ⟨rfl, by simp, by simp; omega, by simp; omega, hs.checkpoint, hs.holds, hs.logits⟩

/-- **Speculative decoding is greedy decoding.** A clean call on a session whose caches hold its
    checkpoint, if it accepts tokens at all, accepts what one-token decode would produce. -/
theorem speculative_eq_greedy (be : Backend net) (cfg : Config) (s : Session net) (first : Nat)
    (maxTokens : Int) (eos : Nat) (acceptedCap : Int) (io : SpecIo net)
    (hk : Holds net s.checkpoint s.kv)
    (hclean : SpecClean be cfg s first maxTokens eos acceptedCap io)
    (s' : Session net) (accepted : List Nat)
    (hres : evalSpeculativeArgmax be cfg s first maxTokens eos acceptedCap io = (s', some accepted))
    (hne : accepted ≠ []) :
    GreedyResult net s.checkpoint first maxTokens eos acceptedCap s' accepted := by
  obtain ⟨hcpumax, hclean⟩ := hclean
  unfold evalSpeculativeArgmax at hres
  by_cases hcpu : cfg.cpu = true
  · rw [if_pos hcpu] at hres
    split at hres
    · exact absurd (Option.some.inj (congrArg Prod.snd hres)).symm hne
    · rename_i hcap
      have hok : (s.eval be cfg first io.eval).2 = true := by
        unfold Session.eval
        rw [if_pos hcpu]
      have hready := eval_ready be cfg hk hok
      dsimp only at hres
      rw [if_pos hok] at hres
      obtain ⟨rfl, hacc⟩ := Prod.mk.inj hres
      obtain rfl := Option.some.inj hacc
      exact hready.single (hcpumax hcpu) (by omega)
  rw [if_neg hcpu] at hres
  split at hres
  · exact absurd (Option.some.inj (congrArg Prod.snd hres)).symm hne
  rename_i hlim
  have hstart := specStart_spec be cfg first maxTokens eos acceptedCap io hk
  cases hst : specStart be cfg s first maxTokens eos acceptedCap io with
  | returned s1 r =>
    rw [hst] at hres hstart
    obtain ⟨rfl, rfl⟩ := Prod.mk.inj hres
    obtain ⟨rfl, hready⟩ := hstart
    exact hready.single (by omega) (by omega)
  | drafted s1 drafts =>
    rw [hst] at hres hstart
    obtain ⟨hfirst, hready, hd, hmax⟩ := hstart
    have hexact := commitAll_exact hready hd (hclean s1 drafts hst)
    dsimp only at hres
    cases hc : commitAll be cfg s1 drafts eos (acceptedCap.toNat - 1) io with
    | error s2 =>
      rw [hc] at hres
      exact absurd (congrArg Prod.snd hres) (by simp)
    | fallthrough s2 =>
      rw [hc] at hres hexact
      obtain ⟨rfl, hacc⟩ := Prod.mk.inj hres
      obtain rfl := Option.some.inj hacc
      exact Ready.single ⟨hexact.1, hexact.2.1, hexact.2.2⟩ (by omega) (by omega)
    | done s2 acc =>
      rw [hc] at hres hexact
      obtain ⟨rfl, hacc⟩ := Prod.mk.inj hres
      obtain rfl := Option.some.inj hacc
      obtain ⟨hgreedy, heos, hlen, hcp, hkv, hlog⟩ := hexact
      have hassoc : s.checkpoint ++ [first] ++ acc = s.checkpoint ++ first :: acc := by simp
      rw [hassoc] at hcp hkv hlog
      have hroom := hd.room
      have hpos := List.length_pos_of_ne_nil hd.ne_nil
      refine ⟨congrArg (first :: ·) hgreedy, eos_last_cons hfirst heos, ?_, ?_, hcp, hkv, hlog⟩
      · rw [List.length_cons]
        omega
      · rw [List.length_cons]
        omega

/-! ### Two calls -/

/-- A network whose rows and logits are the history itself, and whose next token is its length. -/
def historyNet : Network where
  Layer := Unit
  Stream := Unit
  Row := List Nat
  Front := Unit
  Logits := List Nat
  rawCap := 64
  rawWindow := 8
  window_le := by decide
  row := fun _ h => h
  comp := fun _ _ => []
  comp_nil := fun _ => rfl
  comp_prefix := fun _ _ _ => List.nil_prefix
  front := fun _ _ => ()
  logits := fun h => h
  top := fun h => h.length

/-- The history that a ring of histories has at a position. -/
def historyAt (ring : Nat → List Nat) (pos : Nat) : List Nat :=
  if pos = 0 then [] else ring ((pos - 1) % 64)

theorem historyAt_eq {ring : Nat → List Nat} {h : List Nat}
    (hring : h ≠ [] → ring ((h.length - 1) % 64) = h) : historyAt ring h.length = h := by
  unfold historyAt
  by_cases hnil : h.length = 0
  · rw [if_pos hnil, List.length_eq_zero_iff.mp hnil]
  · rw [if_neg hnil]
    exact hring (fun h => hnil (by rw [h]; rfl))

/-- It decodes from the raw row of the last token. -/
def historyBackend : Backend historyNet where
  decode := fun kv pos t =>
    (kv.write (historyAt (kv.raw ()) pos ++ [t]), historyAt (kv.raw ()) pos ++ [t])
  decode_spec := by
    intro h kv t hk
    have hlast : historyAt (kv.raw ()) h.length = h := by
      apply historyAt_eq
      intro hne
      have hpos := List.length_pos_of_ne_nil hne
      have hrow := hk.rows.raw () (h.length - 1) (by omega)
        (by show h.length ≤ h.length - 1 + 8; omega)
      have htake : h.take (h.length - 1 + 1) = h := List.take_of_length_le (by omega)
      exact hrow.trans htake
    exact Prod.ext (congrArg (fun h' => kv.write (h' ++ [t])) hlast)
      (congrArg (fun h' => h' ++ [t]) hlast)

/-- The caches of the history `[0]`. -/
def historyKv : Kv historyNet := ⟨fun _ _ => [0], fun _ _ => [], fun _ => 0, fun _ => ()⟩

theorem historyKv_holds : Holds historyNet [0] historyKv := by
  refine ⟨⟨?_, fun _ _ hj => absurd hj (by simp [historyNet])⟩, ⟨fun _ => rfl, fun _ => rfl⟩⟩
  intro l p hp _
  have hp0 : p = 0 := by
    rw [List.length_singleton] at hp
    omega
  subst hp0
  rfl

/-- A session on a GPU that holds `[0]`. -/
def historySession : Session historyNet := ⟨[0], true, historyKv, [0], none⟩

/-- Two drafts, the micro batch, with or without the exact replay. -/
def draftTwo (exactReplay : Bool) : Config where
  cpu := false
  ctxSize := 64
  prefillCap := 8
  compCap := 64
  resumeMin := 4
  mtpReady := true
  mtpDraftTokens := 2
  mtpProbeLog := false
  strictMtp := true
  marginPositive := false
  batchVerify := true
  capturePrefix1 := false
  exactReplay := exactReplay
  forceSnapshot := false

/-- The drafter proposes the greedy tokens; only the decodes of the replay may fail. -/
def draftsAgree (replay : Call historyNet) : SpecIo historyNet where
  eval := ⟨.ok, some 2⟩
  growOk := true
  drafter := [some 3]
  marginLow := false
  marginCall := .ok
  snapshotOk := true
  verify := .ok
  restoreReplay := .ok
  replay := fun _ => replay
  readRow := true
  commitPrefix := .ok
  readRow0 := true
  restore := .ok
  replayOne := .ok
  reverify := .ok
  rereadRow := true
  restoreLast := .ok
  seq := fun _ => .ok
  seqRead := true

/-- Both drafts are accepted. -/
theorem two_drafts_greedy :
    GreedyResult historyNet [0] 1 8 9 8
      (evalSpeculativeArgmax historyBackend (draftTwo false) historySession 1 8 9 8
        (draftsAgree .ok)).1 [1, 2, 3] := by
  apply speculative_eq_greedy historyBackend (draftTwo false) historySession 1 8 9 8
    (draftsAgree .ok) historyKv_holds
  · refine ⟨fun h => absurd h (by decide), ?_⟩
    intro s' drafts hst _
    obtain ⟨rfl, rfl⟩ := Start.drafted.inj hst.symm
    refine ⟨fun _ => Or.inl (by decide), fun _ _ _ => rfl, ?_⟩
    intro _ rows _ hfails
    exact absurd hfails.1 (by decide)
  · rfl
  · decide

/-- **A failed replay.** The restore succeeds, the first decode of the replay fails, and the row of
    the verifier is read: all drafts are accepted, but the checkpoint has none of them. -/
theorem failed_replay_diverges :
    (evalSpeculativeArgmax historyBackend (draftTwo true) historySession 1 8 9 8
        (draftsAgree (.failed historyKv []))).2 = some [1, 2, 3] ∧
      ¬ GreedyResult historyNet [0] 1 8 9 8
        (evalSpeculativeArgmax historyBackend (draftTwo true) historySession 1 8 9 8
          (draftsAgree (.failed historyKv []))).1 [1, 2, 3] :=
  ⟨by decide, fun h => absurd h.checkpoint (by decide)⟩

end DS4.Engine
