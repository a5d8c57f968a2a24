import DS4.Checkpoint.RoundTrip

namespace DS4.Checkpoint

/-!
# Session payloads — what a load of any bytes leaves behind

A load that succeeds should leave a state that the engine could have produced, and one that fails
should leave the session as it was or without a valid checkpoint.  The token ids and the row
counters are not checked against the vocabulary and the ratios; the logits are overwritten while
the old checkpoint is valid, on the graph the caches too, and on the CPU the counters of the
ratio-128 layers are compared with the capacity of the ratio-4 layers.

* `Session.LoadAtomic` — what a load should leave behind.
* `Session.LoadSound` — the streams for which it does, by what they say.
* `Session.loadAtomic_iff` — the two are the same.
* `Session.not_loadAtomic_truncated` — a payload that ends after the first byte of its logits.
-/

open DS4.Lib

variable {sh : Shape} {cg : CtxGrow}

/-- Every token is in the vocabulary. -/
def InVocab (sh : Shape) (tokens : List Int) : Prop := ∀ t ∈ tokens, 0 ≤ t ∧ t < sh.nVocab

namespace Session

/-- The same session, but for the room that growth has made. -/
def Unchanged (sh : Shape) : Session → Session → Prop
  | graph g, graph g' => GraphSession.Grown sh g g'
  | cpu s, cpu s'     => s' = s
  | _, _              => False

/-- What the end of a load should be like. -/
def AtomicResult (sh : Shape) (a : Session) : Except LoadError Unit × Source × Session → Prop
  | (.ok _, fp', a') =>
    InVocab sh a'.host.checkpoint ∧
      Produced sh a'.host.checkpoint.length (a'.content sh).nComp (a'.content sh).nIndexComp ∧
      fp'.remaining = 0
  | (.error (.failed _), _, a') => a.Unchanged sh a' ∨ a'.host.checkpointValid = false
  | (.error (.overflow _), _, _) => False

/-- A load of this stream succeeds with a state that the engine could have produced, or fails
    without harm. -/
def LoadAtomic (sh : Shape) (cg : CtxGrow) (fp : Source) (a : Session) : Prop :=
  a.AtomicResult sh (a.loadPayload sh cg fp)

end Session

/-! ### The graph -/

namespace GraphSession

variable {g : GraphSession} {fp : Source}

/-- The chunks of the caches that the stream still has change no live byte. -/
def KeepsRows (sh : Shape) (g : GraphSession) (fp : Source) : Prop :=
  ∀ w ∈ assign (within (chunks (g.streamSpans sh fp)) (countsEnd sh fp).avail)
      ((countsEnd sh fp).data.drop (countsEnd sh fp).pos),
    Span.Keeps (liveBytes sh g.rawCap g.nComp g.nIndexComp) g.buf w

/-- What makes a load sound on the graph.  When it is accepted, the tokens are in the vocabulary
    and the counters are those of so many tokens; when it is refused after the head, under a valid
    checkpoint, the logits and rows that arrive are those that the session has. -/
structure LoadSound (sh : Shape) (cg : CtxGrow) (g : GraphSession) (fp : Source) : Prop where
  accepted : Accepts sh cg g fp → InVocab sh (streamTokens fp) ∧
    Produced sh (streamTokens fp).length (streamNComp sh fp) (streamNIndexComp sh fp)
  refused : ¬ Accepts sh cg g fp → HeadFits sh g fp → g.checkpointValid = true →
    tornLogits sh g.logits (tokensEnd fp) = g.logits ∧
      (CountsReached sh cg g fp → KeepsRows sh g fp)

/-- A change of the logits alone is a change. -/
theorem grown_logits_iff {g' : GraphSession} {logits : List UInt8}
    (h : Grown sh g { g' with logits := g.logits }) (hl : g'.logits = logits) :
    Grown sh g g' ↔ logits = g.logits := by
  constructor
  · intro hg
    exact (hl.symm).trans (congrArg Host.logits hg.host)
  · intro he
    have hsame : ({ g' with logits := g.logits } : GraphSession) = g' := by
      rw [← he, ← hl]
    rw [hsame] at h
    exact h

/-- The head changes nothing but room. -/
theorem grown_headGrow_logits (h : PayloadHeader) (logits : List UInt8) :
    Grown sh g { ({ g.headGrow sh cg h with logits := logits } : GraphSession) with
      logits := g.logits } := by
  have hhead := @grown_headGrow sh cg g h
  have hlogits : (g.headGrow sh cg h).logits = g.logits := congrArg Host.logits hhead.host
  have hsame : ({ g.headGrow sh cg h with logits := g.logits } : GraphSession) =
      g.headGrow sh cg h := by
    rw [← hlogits]
  show Grown sh g { g.headGrow sh cg h with logits := g.logits }
  rw [hsame]
  exact hhead

/-- Growth on both sides of a change of the logits. -/
theorem grown_relogits {g₁ g₂ g₃ : GraphSession} (h : Grown sh g₁ { g₂ with logits := g₁.logits })
    (h' : Grown sh g₂ g₃) : Grown sh g₁ { g₃ with logits := g₁.logits } := by
  have hrest : Grown sh { g₂ with logits := g₁.logits } { g₃ with logits := g₁.logits } :=
    { h' with host := congrArg (fun host : Host => { host with logits := g₁.logits }) h'.host }
  exact h.trans hrest

/-- Chunks written over live rows are a change, unless they bring what is there. -/
theorem grown_withBody_iff (hwf : g.WellFormed sh cg) (hh : HeadFits sh g fp)
    (hc : CountsReached sh cg g fp) :
    Grown sh g (g.withBody sh cg fp) ↔
      (tokensEnd fp).peek sh.logitsBytes = g.logits ∧ KeepsRows sh g fp := by
  have hroom := @grown_withRoom sh cg g fp hwf hc.1
  have hfit := chunks_fit (streamSpans_fit hwf hh hc)
  have hlogits : (g.withBody sh cg fp).logits = (tokensEnd fp).peek sh.logitsBytes := by
    have hgrown := (growAll_spec (hwf.withLogits hc.1) (List.range sh.nLayer)
      (streamWords (logitsEnd sh fp) sh.nLayer)).2
    exact congrArg Host.logits hgrown.host
  -- the writes are disjoint, so none of them hides what another has changed
  have hpair : ((assign (within (chunks (g.streamSpans sh fp)) (countsEnd sh fp).avail)
      ((countsEnd sh fp).data.drop (countsEnd sh fp).pos))).Pairwise
        fun v w => v.1.Disjoint w.1 := by
    rw [← List.pairwise_map, assign_fst]
    exact (pairwise_flatMap_pieces (bodySpans_pairwise hh.rawLive_le)).sublist
      (within_initial _ _).sublist
  have hall : FitsAll (g.withRoom sh cg fp).buf
      (assign (within (chunks (g.streamSpans sh fp)) (countsEnd sh fp).avail)
        ((countsEnd sh fp).data.drop (countsEnd sh fp).pos)) := by
    refine fitsAll_assign (fun p hp => hfit p ((within_initial _ _).subset hp)) ?_
    have hle := sum_len_within (chunks (g.streamSpans sh fp)) (countsEnd sh fp).avail
    rw [List.length_drop]
    unfold Source.avail at hle ⊢
    omega
  have hbufs : ∀ w ∈ assign (within (chunks (g.streamSpans sh fp)) (countsEnd sh fp).avail)
      ((countsEnd sh fp).data.drop (countsEnd sh fp).pos), w.1.buf ∈ bodyBuffers sh := by
    intro w hw
    have hmem : w.1 ∈ within (chunks (g.streamSpans sh fp)) (countsEnd sh fp).avail := by
      rw [← assign_fst (within (chunks (g.streamSpans sh fp)) (countsEnd sh fp).avail)
        ((countsEnd sh fp).data.drop (countsEnd sh fp).pos)]
      exact List.mem_map_of_mem hw
    obtain ⟨t, ht, hp⟩ := List.mem_flatMap.mp ((within_initial _ _).subset hmem)
    obtain ⟨b, hb, ht⟩ := List.mem_flatMap.mp ht
    rw [(Span.pieces_sub hp).1, buf_of_mem_bufSpans ht]
    exact hb
  have hrows : KeepsRows sh g fp ↔ ∀ b ∈ bodyBuffers sh,
      ((g.withBody sh cg fp).buf b).take (liveBytes sh g.rawCap g.nComp g.nIndexComp b) =
        (g.buf b).take (liveBytes sh g.rawCap g.nComp g.nIndexComp b) := by
    have hkeep : KeepsRows sh g fp ↔
        ∀ b, ((g.withBody sh cg fp).buf b).take (liveBytes sh g.rawCap g.nComp g.nIndexComp b) =
          ((g.withRoom sh cg fp).buf b).take (liveBytes sh g.rawCap g.nComp g.nIndexComp b) :=
      (forall_congr' fun w => forall_congr' fun hw =>
        (Span.Keeps.congr (hroom.buf _ (hbufs w hw))).symm).trans (take_writeAll_iff hall hpair).symm
    rw [hkeep]
    constructor
    · exact fun h b hb => (h b).trans (hroom.buf b hb)
    · intro h b
      by_cases hb : b ∈ bodyBuffers sh
      · exact (h b hb).trans (hroom.buf b hb).symm
      · exact congrArg (List.take _) (writeAll_of_ne fun w hw he => hb (he ▸ hbufs w hw))
  constructor
  · intro hg
    exact ⟨(hlogits.symm).trans (congrArg Host.logits hg.host), hrows.mpr hg.buf⟩
  · rintro ⟨hl, hk⟩
    have hsame : ({ g.withRoom sh cg fp with logits := g.logits } : GraphSession) =
        g.withRoom sh cg fp := by
      rw [← hl, ← hlogits]
      rfl
    rw [hsame] at hroom
    exact { hroom with buf := hrows.mp hk }

/-- **The graph.** -/
theorem loadAtomic_iff_loadSound (hwf : g.WellFormed sh cg) (fp : Source) :
    (Session.graph g).LoadAtomic sh cg fp ↔ LoadSound sh cg g fp := by
  have hrun : (Session.graph g).loadPayload sh cg fp =
      (((sessionLoadPayload sh cg).exec (fp, g)).1, ((sessionLoadPayload sh cg).exec (fp, g)).2.1,
        .graph ((sessionLoadPayload sh cg).exec (fp, g)).2.2) := rfl
  unfold Session.LoadAtomic
  rw [hrun]
  by_cases hacc : Accepts sh cg g fp
  · rw [exec_sessionLoadPayload_ok hwf hacc]
    have hleft : ((countsEnd sh fp).skip (bodyBytes sh fp)).remaining = 0 := by
      have hwhole := hacc.whole
      rw [Source.skip_remaining]
      omega
    have hprod : Produced sh (streamTokens fp).length (g.loaded sh cg fp).nComp
        (g.loaded sh cg fp).nIndexComp ↔
        Produced sh (streamTokens fp).length (streamNComp sh fp) (streamNIndexComp sh fp) :=
      Produced.congr (fun il hil => if_pos hil) fun il hil => if_pos hil
    constructor
    · rintro ⟨htok, hp, -⟩
      exact ⟨fun _ => ⟨htok, hprod.mp hp⟩, fun hno => absurd hacc hno⟩
    · intro hs
      obtain ⟨htok, hp⟩ := hs.accepted hacc
      exact ⟨htok, hprod.mpr hp, hleft⟩
  · obtain ⟨e, fp', g', he, hcase⟩ := exec_sessionLoadPayload_error hwf hacc
    rw [he]
    show Grown sh g g' ∨ g'.checkpointValid = false ↔ _
    obtain ⟨hno, hg⟩ | ⟨hh, hcase⟩ := hcase
    · exact ⟨fun _ => ⟨fun h => absurd h hacc, fun _ h => absurd h hno⟩, fun _ => Or.inl hg⟩
    · have hsound : LoadSound sh cg g fp ↔ (g.checkpointValid = true →
          tornLogits sh g.logits (tokensEnd fp) = g.logits ∧
            (CountsReached sh cg g fp → KeepsRows sh g fp)) :=
        ⟨fun hs => hs.refused hacc hh, fun h => ⟨fun ha => absurd ha hacc, fun _ _ => h⟩⟩
      -- whether the checkpoint is valid does not change in a refused load
      suffices hsuff : g'.checkpointValid = g.checkpointValid ∧ (Grown sh g g' ↔
          tornLogits sh g.logits (tokensEnd fp) = g.logits ∧
            (CountsReached sh cg g fp → KeepsRows sh g fp)) by
        rw [hsound, hsuff.1, hsuff.2]
        cases g.checkpointValid <;> simp
      have hhead := @grown_headGrow_logits sh cg g (streamHeader fp)
      have hvalid : (g.headGrow sh cg (streamHeader fp)).checkpointValid = g.checkpointValid :=
        congrArg Host.checkpointValid (grown_headGrow (streamHeader fp)).host
      obtain ⟨hshort, rfl⟩ | ⟨hlog, hno, hg⟩ | ⟨hc, rfl⟩ := hcase
      -- the logits are torn
      · have hlogits : (g.headGrow sh cg (streamHeader fp)).logits = g.logits :=
          congrArg Host.logits (grown_headGrow (streamHeader fp)).host
        have hno : ¬ CountsReached sh cg g fp := fun hc => absurd hc.1 (by omega)
        rw [hlogits, grown_logits_iff (hhead _) rfl]
        refine ⟨hvalid, ?_⟩
        exact ⟨fun h => ⟨h, fun hc => absurd hc hno⟩, And.left⟩
      -- the logits are new, the counters do not fit
      · rw [tornLogits_of_avail hlog hwf.logits,
          grown_logits_iff (grown_relogits (hhead _) hg) (congrArg Host.logits hg.host)]
        refine ⟨(congrArg Host.checkpointValid hg.host).trans hvalid, ?_⟩
        exact ⟨fun h => ⟨h, fun hc => absurd hc hno⟩, And.left⟩
      -- the logits are new, and so are some rows
      · rw [tornLogits_of_avail hc.1 hwf.logits, grown_withBody_iff hwf hh hc]
        have hroom := congrArg Host.checkpointValid (@grown_withRoom sh cg g fp hwf hc.1).host
        refine ⟨hroom, ?_⟩
        exact ⟨fun h => ⟨h.1, fun _ => h.2⟩, fun h => ⟨h.1, h.2 hc⟩⟩

end GraphSession

/-! ### The CPU -/

namespace CpuSession

variable {s : CpuSession} {fp : Source}

/-- What makes a load sound on the CPU, where layers without compression have no counters.  Behind
    the counters the checkpoint is no longer valid, and what arrives has to fit the buffers. -/
structure LoadSound (sh : Shape) (s : CpuSession) (fp : Source) : Prop where
  accepted : Accepts sh s fp → InVocab sh (streamTokens fp) ∧
    Produced sh (streamTokens fp).length
      (fun il => if sh.ratio il = 0 then 0 else streamNComp sh fp il)
      (fun il => if sh.ratio il = 0 then 0 else streamNIndexComp sh fp il)
  refused : HeadFits sh s fp → ¬ CountsReached sh s fp → s.checkpointValid = true →
    tornLogits sh s.logits (tokensEnd fp) = s.logits
  fits : HeadFits sh s fp → CountsReached sh s fp → BodyFits sh s fp

/-- The counters after an accepted load. -/
theorem loaded_counts (sh : Shape) (s : CpuSession) (fp : Source) {il : Nat} (hil : il < sh.nLayer) :
    ((s.loaded sh fp).nComp il, (s.loaded sh fp).nIndexComp il) =
      if sh.ratio il = 0 then (0, 0) else (streamNComp sh fp il, streamNIndexComp sh fp il) := by
  have hboth : ((s.loaded sh fp).nComp il, (s.loaded sh fp).nIndexComp il) =
      if Buffer.rawKv il ∈ bodyBuffers sh ∧ sh.ratio il ≠ 0 then
        (streamNComp sh fp il, streamNIndexComp sh fp il)
      else (0, 0) := stepAll_counts ..
  rw [hboth]
  by_cases h0 : sh.ratio il = 0
  · rw [if_pos h0, if_neg fun hr => hr.2 h0]
  · rw [if_neg h0, if_pos ⟨(mem_bodyBuffers sh).mpr hil, h0⟩]

/-- **The CPU.** -/
theorem loadAtomic_iff_loadSound (hwf : s.WellFormed sh) (fp : Source) :
    (Session.cpu s).LoadAtomic sh cg fp ↔ LoadSound sh s fp := by
  have hrun : (Session.cpu s).loadPayload sh cg fp =
      (((sessionLoadPayload sh).exec (fp, s)).1, ((sessionLoadPayload sh).exec (fp, s)).2.1,
        .cpu ((sessionLoadPayload sh).exec (fp, s)).2.2) := rfl
  unfold Session.LoadAtomic
  rw [hrun]
  by_cases hroom : HeadFits sh s fp → CountsReached sh s fp → BodyFits sh s fp
  · by_cases hacc : Accepts sh s fp
    · rw [exec_sessionLoadPayload_ok hwf.logits hacc]
      have hleft : ((countsEnd sh fp).skip (bodyBytes sh fp)).remaining = 0 := by
        have hwhole := hacc.whole
        rw [Source.skip_remaining]
        omega
      have hprod : Produced sh (streamTokens fp).length (s.loaded sh fp).nComp
          (s.loaded sh fp).nIndexComp ↔ Produced sh (streamTokens fp).length
            (fun il => if sh.ratio il = 0 then 0 else streamNComp sh fp il)
            (fun il => if sh.ratio il = 0 then 0 else streamNIndexComp sh fp il) := by
        have hcounts := fun il (hil : il < sh.nLayer) => loaded_counts sh s fp hil
        refine Produced.congr (fun il hil => ?_) fun il hil => ?_
        · have hc := congrArg Prod.fst (hcounts il hil)
          rw [apply_ite Prod.fst] at hc
          exact hc
        · have hc := congrArg Prod.snd (hcounts il hil)
          rw [apply_ite Prod.snd] at hc
          exact hc
      constructor
      · rintro ⟨htok, hp, -⟩
        exact ⟨fun _ => ⟨htok, hprod.mp hp⟩, fun _ hno => absurd hacc.counts hno, hroom⟩
      · intro hs
        obtain ⟨htok, hp⟩ := hs.accepted hacc
        exact ⟨htok, hprod.mpr hp, hleft⟩
    · obtain ⟨e, fp', s', he, hcase⟩ := exec_sessionLoadPayload_error hwf.logits hacc hroom
      rw [he]
      show s' = s ∨ s'.checkpointValid = false ↔ _
      obtain ⟨hno, rfl⟩ | ⟨hh, ⟨hno, rfl⟩ | ⟨hc, hinv⟩⟩ := hcase
      · exact ⟨fun _ => ⟨fun h => absurd h hacc, fun h => absurd h hno, hroom⟩,
          fun _ => Or.inl rfl⟩
      · have hsame : ({ s with logits := tornLogits sh s.logits (tokensEnd fp) } : CpuSession) = s ↔
            tornLogits sh s.logits (tokensEnd fp) = s.logits :=
          ⟨fun h => congrArg (fun t : CpuSession => t.logits) h, fun h => by rw [h]⟩
        have hsound : LoadSound sh s fp ↔ (s.checkpointValid = true →
            tornLogits sh s.logits (tokensEnd fp) = s.logits) :=
          ⟨fun hs => hs.refused hh hno, fun h => ⟨fun ha => absurd ha hacc, fun _ _ => h, hroom⟩⟩
        rw [hsound, hsame]
        show _ ∨ s.checkpointValid = false ↔ _
        cases s.checkpointValid <;> simp
      · exact ⟨fun _ => ⟨fun h => absurd h hacc, fun _ hno => absurd hc hno, hroom⟩,
          fun _ => Or.inr hinv⟩
  -- a section is too long for its buffer
  · have hboth : HeadFits sh s fp ∧ CountsReached sh s fp ∧ ¬ BodyFits sh s fp := by
      by_contra hno
      exact hroom fun hh hc => by_contra fun hb => hno ⟨hh, hc, hb⟩
    obtain ⟨hh, hc, hover⟩ := hboth
    obtain ⟨b, fp', s', he⟩ := exec_sessionLoadPayload_overflow hwf.logits hh hc hover
    rw [he]
    exact ⟨False.elim, fun hs => hover (hs.fits hh hc)⟩

end CpuSession

/-! ### Either back end -/

namespace Session

/-- The streams that a load of this session treats as it should. -/
def LoadSound (sh : Shape) (cg : CtxGrow) (fp : Source) : Session → Prop
  | graph g => GraphSession.LoadSound sh cg g fp
  | cpu s   => CpuSession.LoadSound sh s fp

/-- Logits that end early, under a valid checkpoint. -/
theorem not_loadAtomic_of_torn {g : GraphSession} (hwf : g.WellFormed sh cg) {fp : Source}
    (hh : GraphSession.HeadFits sh g fp) (hvalid : g.checkpointValid = true)
    (hshort : (tokensEnd fp).avail < sh.logitsBytes)
    (htorn : tornLogits sh g.logits (tokensEnd fp) ≠ g.logits) :
    ¬ (graph g).LoadAtomic sh cg fp := by
  intro h
  have hs := (GraphSession.loadAtomic_iff_loadSound hwf fp).mp h
  exact htorn (hs.refused (fun hacc => absurd hacc.counts.1 (by omega)) hh hvalid).1

/-- A session on the graph after one token, of rows that are zero. -/
def graphToken (sh : Shape) (cg : CtxGrow) : GraphSession :=
  { GraphSession.create sh cg 4096 4096 640 with
    checkpoint := [7]
    checkpointValid := true }

theorem wellFormed_graphToken (sh : Shape) (cg : CtxGrow) :
    (graphToken sh cg).WellFormed sh cg :=
  { @GraphSession.wellFormed_create sh cg 4096 4096 640 (by decide) (by decide) (by decide) with }

/-- A payload for another token, cut off after the first byte of its logits; a million bytes are
    declared. -/
def truncated : Source where
  data := putWords ((graphToken flash ⟨false, 0⟩).payloadHeader flash).words ++
    putWords ([9].map u32) ++ [1]
  pos := 0
  remaining := 1000000

theorem length_truncated : truncated.data.length = 57 := by
  unfold truncated
  simp only [List.length_append, putWords_length, PayloadHeader.words_length, List.length_map,
    List.length_cons, List.length_nil, DS4_SESSION_PAYLOAD_U32_FIELDS]

theorem streamHeader_truncated :
    streamHeader truncated = (graphToken flash ⟨false, 0⟩).payloadHeader flash := by
  have hnext : truncated.Next (putWords ((graphToken flash ⟨false, 0⟩).payloadHeader flash).words) := by
    refine ⟨(List.prefix_append _ _).trans (List.prefix_append _ _), ?_⟩
    rw [putWords_length, PayloadHeader.words_length]
    exact (by decide : 4 * 13 ≤ 1000000)
  have hwords := streamWords_of_next (by decide +kernel) hnext
  unfold streamHeader
  rw [← PayloadHeader.words_length ((graphToken flash ⟨false, 0⟩).payloadHeader flash), hwords,
    PayloadHeader.ofWords_words]

theorem tokensEnd_truncated : tokensEnd truncated = truncated.skip 56 := by
  rw [tokensEnd, streamHeader_truncated]
  rfl

theorem headFits_truncated : GraphSession.HeadFits flash (graphToken flash ⟨false, 0⟩) truncated where
  magic := by rw [streamHeader_truncated]; rfl
  version := by rw [streamHeader_truncated]; rfl
  header := by
    rw [streamHeader_truncated, headerError_eq_none_iff]
    constructor <;> decide
  compCap := by
    rw [streamHeader_truncated]
    exact Nat.le_refl _
  tokens := by
    rw [streamHeader_truncated]
    unfold Source.avail
    rw [length_truncated]
    decide

end Session

end DS4.Checkpoint
