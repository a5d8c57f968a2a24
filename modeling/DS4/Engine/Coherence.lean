import DS4.Lib.Run
import DS4.Engine.Greedy
import DS4.Engine.Snapshot

namespace DS4.Engine

/-!
# Engine — session coherence along runs

A run is a sequence of calls on one session, with payloads saved and loaded on the way and every
call free to fail at any point.

* `step`, `Op` — one call; `World` — the session and the payloads saved so far.
* `Careful` — the calls that leave a valid checkpoint over other caches are excluded, each by its
  branch: a rewind that shortens a valid checkpoint, a load that fails while it overwrites a
  session that stays valid, an eval or a speculative commit on an invalid session, a batch
  verification that is not clean.
* `coherent_of_run` — **coherence** along every careful run; a later sync ends as a cold one.
* `rewind_leaves_stale_caches` — a run with a rewind.
-/

variable {net : Network}

/-! ### Calls and runs -/

/-- A call on the session, with what the environment decides about it. -/
inductive Op (net : Network) where
  | sync (prompt : List Nat) (io : Session.SyncIo net)
  | eval (token : Nat) (io : Session.EvalIo net)
  | speculative (first : Nat) (maxTokens : Int) (eos : Nat) (acceptedCap : Int) (io : SpecIo net)
  | rewind (pos : Int)
  | invalidate
  | rewriteFromCommon (prompt : List Nat) (common : Int) (io : Session.SyncIo net)
  | save
  | load (i : Nat) (io : LoadIo net)

/-- The session, and the payloads that can be loaded. -/
structure World (net : Network) where
  session : Session net
  payloads : List (Payload net)

variable (be : Backend net) (cfg : Config)

/-- One call. -/
def step (w : World net) : Op net → World net
  | .sync prompt io => { w with session := (w.session.sync be cfg prompt io).1 }
  | .eval token io => { w with session := (w.session.eval be cfg token io).1 }
  | .speculative first maxTokens eos acceptedCap io =>
    { w with
      session := (evalSpeculativeArgmax be cfg w.session first maxTokens eos acceptedCap io).1 }
  | .rewind pos => { w with session := w.session.rewind pos }
  | .invalidate => { w with session := w.session.invalidate }
  | .rewriteFromCommon prompt common io =>
    { w with session := (w.session.rewriteFromCommon be cfg prompt common io).1 }
  | .save => { w with payloads := w.payloads ++ (w.session.savePayload cfg).toList }
  | .load i io =>
    match w.payloads[i]? with
    | some p => { w with session := (w.session.loadPayload cfg p io).1 }
    | none   => w

/-- The session is valid, or its caches happen to hold its checkpoint. -/
def Settled (s : Session net) : Prop := s.checkpointValid = true ∨ Holds net s.checkpoint s.kv

/-- The calls that keep a valid checkpoint coherent. -/
def Careful (w : World net) : Op net → Prop
  | .eval _ _ => cfg.cpu = true → Settled w.session
  | .speculative first maxTokens eos acceptedCap io =>
    (cfg.cpu = true → Settled w.session) ∧
      ∀ s' drafts,
        specStart be cfg w.session first maxTokens eos acceptedCap io = .drafted s' drafts →
          Settled w.session ∧ (skipsMargin cfg drafts io = false →
            VerifyClean be cfg s' drafts eos (acceptedCap.toNat - 1) io)
  | .rewind pos =>
    w.session.checkpointValid = true → w.session.checkpoint.length ≤ pos.toNat
  | .load _ io =>
    (∀ junk, io = .logits junk → w.session.checkpointValid = false) ∧
      ∀ junk, io = .caches junk → cfg.cpu = true ∨ w.session.checkpointValid = false
  | _ => True

/-- The session is sound, and every payload is that of its tokens. -/
structure World.Sound (w : World net) : Prop where
  session : w.session.Sound
  payloads : ∀ p ∈ w.payloads, p.Faithful

/-! ### Speculative calls -/

variable {be cfg} {s : Session net}

theorem Settled.holds (h : Settled s) (hs : s.Sound) : Holds net s.checkpoint s.kv := by
  obtain hv | hk := h
  · exact (hs hv).1
  · exact hk

theorem Ready.sound {h : List Nat} (hr : Ready net h s) : s.Sound := by
  intro _
  obtain ⟨hcp, hk, hl⟩ := hr
  exact ⟨by rw [hcp]; exact hk, by rw [hcp]; exact hl⟩

/-- On the GPU the part before the verification does not validate an invalid checkpoint. -/
theorem specStart_invalid {first : Nat} {maxTokens : Int} {eos : Nat} {acceptedCap : Int}
    {io : SpecIo net} (hcpu : cfg.cpu = false) (hv : s.checkpointValid = false) {s' : Session net}
    {r : Option (List Nat)}
    (h : specStart be cfg s first maxTokens eos acceptedCap io = .returned s' r) :
    s'.checkpointValid = false := by
  have heval : (s.eval be cfg first io.eval).1.checkpointValid = false := by
    unfold Session.eval
    rw [if_neg (by simp [hcpu])]
    cases io.eval.call with
    | failed junk logits => rfl
    | ok =>
      dsimp only
      split
      · exact hv
      · exact hv
  unfold specStart at h
  dsimp only at h
  generalize (s.eval be cfg first io.eval).1 = s1 at heval h
  split at h
  · obtain ⟨rfl, -⟩ := Start.returned.inj h
    exact heval
  split at h
  · obtain ⟨rfl, -⟩ := Start.returned.inj h
    exact heval
  cases hd : s1.mtpDraft with
  | none =>
    rw [hd] at h
    obtain ⟨rfl, -⟩ := Start.returned.inj h
    exact heval
  | some d =>
    rw [hd] at h
    dsimp only at h
    split at h
    · obtain ⟨rfl, -⟩ := Start.returned.inj h
      exact heval
    split at h
    · obtain ⟨rfl, -⟩ := Start.returned.inj h
      exact heval
    split at h
    · obtain ⟨rfl, -⟩ := Start.returned.inj h
      exact heval
    split at h
    · obtain ⟨rfl, -⟩ := Start.returned.inj h
      exact heval
    split at h
    · obtain ⟨rfl, -⟩ := Start.returned.inj h
      exact heval
    · exact absurd h (by simp)

/-- **Speculative calls.** -/
theorem speculative_sound (hs : s.Sound) (first : Nat) (maxTokens : Int) (eos : Nat)
    (acceptedCap : Int) (io : SpecIo net) (hcpu : cfg.cpu = true → Settled s)
    (hclean : ∀ s' drafts,
      specStart be cfg s first maxTokens eos acceptedCap io = .drafted s' drafts →
        Settled s ∧ (skipsMargin cfg drafts io = false →
          VerifyClean be cfg s' drafts eos (acceptedCap.toNat - 1) io)) :
    (evalSpeculativeArgmax be cfg s first maxTokens eos acceptedCap io).1.Sound := by
  unfold evalSpeculativeArgmax
  by_cases hc : cfg.cpu = true
  · rw [if_pos hc]
    split
    · exact hs
    · exact Session.eval_sound hs hcpu first io.eval
  rw [if_neg hc]
  split
  · exact hs
  cases hst : specStart be cfg s first maxTokens eos acceptedCap io with
  | returned s1 r =>
    dsimp only
    by_cases hv : s.checkpointValid = true
    · have hstart := specStart_spec be cfg first maxTokens eos acceptedCap io (hs hv).1
      rw [hst] at hstart
      cases r with
      | none =>
        obtain hbad | hready := hstart
        · exact fun hv => absurd hv (by simp [hbad])
        · exact hready.sound
      | some accepted => exact hstart.2.sound
    -- an invalid session stays invalid
    · have hbad := specStart_invalid (Bool.eq_false_iff.mpr hc) (Bool.eq_false_iff.mpr hv) hst
      exact fun hv => absurd hv (by simp [hbad])
  | drafted s1 drafts =>
    obtain ⟨hsettled, hverify⟩ := hclean s1 drafts hst
    have hstart := specStart_spec be cfg first maxTokens eos acceptedCap io (hsettled.holds hs)
    rw [hst] at hstart
    obtain ⟨-, hready, hd, -⟩ := hstart
    have hexact := commitAll_exact hready hd hverify
    dsimp only
    cases hcall : commitAll be cfg s1 drafts eos (acceptedCap.toNat - 1) io with
    | done s2 accepted =>
      rw [hcall] at hexact
      intro _
      exact ⟨by rw [hexact.checkpoint]; exact hexact.holds,
        by rw [hexact.checkpoint]; exact hexact.logits⟩
    | error s2 =>
      rw [hcall] at hexact
      exact fun hv => absurd hv (by rw [show s2.checkpointValid = false from hexact]; simp)
    | fallthrough s2 =>
      rw [hcall] at hexact
      exact Ready.sound ⟨hexact.1, hexact.2.1, hexact.2.2⟩

/-! ### Runs -/

/-- **One call.** -/
theorem step_sound {w : World net} (hw : w.Sound) (op : Op net) (hop : Careful be cfg w op) :
    (step be cfg w op).Sound := by
  obtain ⟨hs, hp⟩ := hw
  cases op with
  | sync prompt io => exact ⟨Session.sync_sound hs prompt io, hp⟩
  | eval token io => exact ⟨Session.eval_sound hs hop token io, hp⟩
  | speculative first maxTokens eos acceptedCap io =>
    exact ⟨speculative_sound hs first maxTokens eos acceptedCap io hop.1 hop.2, hp⟩
  | rewind pos => exact ⟨Session.rewind_sound hs pos hop, hp⟩
  | invalidate => exact ⟨Session.invalidate_sound _, hp⟩
  | rewriteFromCommon prompt common io =>
    exact ⟨Session.rewriteFromCommon_sound hs prompt common io, hp⟩
  | save =>
    refine ⟨hs, ?_⟩
    intro p hmem
    obtain hold | hnew := List.mem_append.mp hmem
    · exact hp p hold
    · exact Session.savePayload_faithful hs (Option.mem_toList.mp hnew)
  | load i io =>
    show (match w.payloads[i]? with
      | some p => { w with session := (w.session.loadPayload cfg p io).1 }
      | none   => w).Sound
    cases hi : w.payloads[i]? with
    | none => exact ⟨hs, hp⟩
    | some p =>
      exact ⟨Session.loadPayload_sound hs (hp p (List.mem_of_getElem? hi)) hop.1 hop.2, hp⟩

/-! ### A sync after a run -/

/-- A short suffix that was decoded is at the end of the checkpoint. -/
theorem decodeSuffix_ok {ts : List Nat} {steps : Nat → Call net}
    (hok : (s.decodeSuffix be steps ts).2 = true) :
    (s.decodeSuffix be steps ts).1.checkpoint = s.checkpoint ++ ts ∧
      (s.decodeSuffix be steps ts).1.checkpointValid = s.checkpointValid := by
  induction ts generalizing s steps with
  | nil => exact ⟨(List.append_nil _).symm, rfl⟩
  | cons t ts ih =>
    unfold Session.decodeSuffix at hok ⊢
    dsimp only at hok ⊢
    cases hcall : steps 0 with
    | ok =>
      rw [hcall] at hok
      obtain ⟨hcp, hv⟩ := ih (s := (s.evalToken be t .ok).1) hok
      constructor
      · show (Session.decodeSuffix be (s.evalToken be t .ok).1 _ ts).1.checkpoint = _
        rw [hcp, List.append_cons]
        rfl
      · exact hv
    | failed kv logits =>
      rw [hcall] at hok
      exact absurd hok (by simp [Session.evalToken])

theorem fullPrefill_ok {prompt : List Nat} {io : Session.SyncIo net}
    (hok : (s.fullPrefill be prompt io).2 = true) :
    (s.fullPrefill be prompt io).1.checkpoint = prompt ∧
      (s.fullPrefill be prompt io).1.checkpointValid = true := by
  unfold Session.fullPrefill at hok ⊢
  cases hfull : io.full with
  | failed kv logits noted =>
    rw [hfull] at hok
    exact absurd hok (by simp)
  | ok noted =>
    rw [hfull] at hok
    dsimp only at hok ⊢
    by_cases hdone : io.fullDone = true
    · rw [if_pos hdone]
      exact ⟨rfl, rfl⟩
    · rw [if_neg hdone] at hok
      exact absurd hok (by simp)

/-- A successful sync ends with a valid checkpoint, the prompt. -/
theorem sync_checkpoint {prompt : List Nat} {io : Session.SyncIo net}
    (hok : (s.sync be cfg prompt io).2 = true) :
    (s.sync be cfg prompt io).1.checkpoint = prompt ∧
      (s.sync be cfg prompt io).1.checkpointValid = true := by
  unfold Session.sync at hok ⊢
  by_cases hargs : prompt = [] ∨ cfg.ctxSize ≤ prompt.length
  · rw [if_pos hargs] at hok
    exact absurd hok (by simp)
  rw [if_neg hargs] at hok ⊢
  by_cases hpre : s.checkpointValid = true ∧ s.checkpoint.isPrefixOf prompt = true
  · rw [if_pos hpre] at hok ⊢
    obtain ⟨hv, hpre⟩ := hpre
    obtain ⟨suffix, rfl⟩ := List.isPrefixOf_iff_prefix.mp hpre
    have hdecoded : ∀ steps : Nat → Call net,
        (Session.decodeSuffix be { s with mtpDraft := none } steps suffix).2 = true →
        (Session.decodeSuffix be { s with mtpDraft := none } steps suffix).1.checkpoint =
            s.checkpoint ++ suffix ∧
          (Session.decodeSuffix be { s with mtpDraft := none } steps suffix).1.checkpointValid =
            true := by
      intro steps h
      obtain ⟨hcp, hvalid⟩ := decodeSuffix_ok h
      exact ⟨hcp, hvalid.trans hv⟩
    rw [List.drop_left] at hok ⊢
    dsimp only at hok ⊢
    by_cases hcpu : cfg.cpu = true
    · rw [if_pos hcpu] at hok ⊢
      exact hdecoded _ hok
    rw [if_neg hcpu] at hok ⊢
    by_cases hlong : 0 < suffix.length ∧ cfg.resumeMin ≤ suffix.length
    · rw [if_pos hlong] at hok ⊢
      cases hres : io.resume with
      | failed kv logits noted =>
        rw [hres] at hok
        exact fullPrefill_ok hok
      | ok noted =>
        rw [hres] at hok
        dsimp only at hok ⊢
        by_cases hdone : io.resumeDone = true
        · rw [if_pos hdone]
          exact ⟨rfl, rfl⟩
        · rw [if_neg hdone] at hok
          exact absurd hok (by simp)
    rw [if_neg hlong] at hok ⊢
    by_cases hviews : 0 < suffix.length ∧ io.views = false
    · rw [if_pos hviews] at hok
      exact absurd hok (by simp)
    · rw [if_neg hviews] at hok ⊢
      exact hdecoded _ hok
  · rw [if_neg hpre] at hok ⊢
    by_cases hcpu : cfg.cpu = true
    · rw [if_pos hcpu]
      exact ⟨rfl, rfl⟩
    · rw [if_neg hcpu] at hok ⊢
      exact fullPrefill_ok hok

/-- **A later sync.** From a sound session a successful sync has the tokens of the prompt, and
    its caches and logits. -/
theorem sync_ok {prompt : List Nat} {io : Session.SyncIo net} (hs : s.Sound)
    (hok : (s.sync be cfg prompt io).2 = true) :
    (s.sync be cfg prompt io).1.checkpoint = prompt ∧
      Holds net prompt (s.sync be cfg prompt io).1.kv ∧
      (s.sync be cfg prompt io).1.logits = net.logits prompt := by
  obtain ⟨hcp, hv⟩ := sync_checkpoint hok
  have hsound : (s.sync be cfg prompt io).1.Sound := Session.sync_sound hs prompt io
  obtain ⟨hk, hl⟩ := hsound hv
  rw [hcp] at hk hl
  exact ⟨hcp, hk, hl⟩

/-- A cold prefill of the prompt: the session is invalidated first. -/
def coldSync (be : Backend net) (cfg : Config) (s : Session net) (prompt : List Nat)
    (io : Session.SyncIo net) : Session net × Bool :=
  s.invalidate.sync be cfg prompt io

/-- **Coherence.** In every state of a careful run the session is sound, and a later sync ends
    with the same logits as a cold prefill of its prompt. -/
theorem coherent_of_run (be : Backend net) (cfg : Config) {w : World net}
    (hinvalid : w.session.checkpointValid = false) (hpayloads : ∀ p ∈ w.payloads, p.Faithful)
    {ops before : List (Op net)} (hbefore : before <+: ops)
    (hrun : Lib.Guarded (step be cfg) (Careful be cfg) w ops) :
    (before.foldl (step be cfg) w).session.Sound ∧
      ∀ prompt io cold,
        ((before.foldl (step be cfg) w).session.sync be cfg prompt io).2 = true →
        (coldSync be cfg (before.foldl (step be cfg) w).session prompt cold).2 = true →
        ((before.foldl (step be cfg) w).session.sync be cfg prompt io).1.logits =
          (coldSync be cfg (before.foldl (step be cfg) w).session prompt cold).1.logits := by
  obtain ⟨after, rfl⟩ := hbefore
  have hstart : w.Sound := ⟨fun hv => absurd hv (by simp [hinvalid]), hpayloads⟩
  have hkeep : ∀ (w : World net) (op : Op net), w.Sound → Careful be cfg w op →
      (step be cfg w op).Sound := fun _ op hw hop => step_sound hw op hop
  have hsound := Lib.Guarded.invariant hkeep hrun.left hstart
  refine ⟨hsound.session, ?_⟩
  intro prompt io cold hok hcold
  obtain ⟨-, -, hlogits⟩ := sync_ok hsound.session hok
  obtain ⟨-, -, hlogitsCold⟩ := sync_ok (Session.invalidate_sound _) hcold
  exact hlogits.trans hlogitsCold.symm

instance : DecidableEq historyNet.Logits := inferInstanceAs (DecidableEq (List Nat))

/-- A sync whose calls all succeed. -/
def syncCalls : Session.SyncIo historyNet :=
  ⟨.ok none, true, true, fun _ => .ok, .ok none, true⟩

/-- A world with a session that has done nothing. -/
def freshWorld : World historyNet := ⟨historySession.invalidate, []⟩

/-- A prefill and a decoded token. -/
theorem prefill_and_eval_sound :
    ([Op.sync [1, 2] syncCalls, .eval 3 ⟨.ok, none⟩].foldl
      (step historyBackend (draftTwo false)) freshWorld).session.Sound := by
  apply (coherent_of_run historyBackend (draftTwo false) rfl _ (List.prefix_refl _) _).1
  · intro p hp
    exact absurd hp List.not_mem_nil
  · exact ⟨trivial, fun h => absurd h (by decide), trivial⟩

/-- **A rewind.** It shortens the checkpoint and nothing else: the checkpoint stays valid, the
    logits are those of the longer one, and a sync of the shorter prompt succeeds with them. -/
theorem rewind_leaves_stale_caches :
    let w := [Op.sync [1, 2, 3] syncCalls, .rewind 2].foldl
      (step historyBackend (draftTwo false)) freshWorld
    ¬ w.session.Sound ∧
      (w.session.sync historyBackend (draftTwo false) [1, 2] syncCalls).2 = true ∧
      (coldSync historyBackend (draftTwo false) w.session [1, 2] syncCalls).2 = true ∧
      (w.session.sync historyBackend (draftTwo false) [1, 2] syncCalls).1.logits ≠
        (coldSync historyBackend (draftTwo false) w.session [1, 2] syncCalls).1.logits :=
  ⟨fun h => absurd (h (by decide)).2 (by decide), by decide, by decide, by decide⟩

end DS4.Engine
