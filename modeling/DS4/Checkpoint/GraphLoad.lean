import DS4.Checkpoint.GraphGrow
import DS4.Checkpoint.GraphRoundTrip

namespace DS4.Checkpoint

/-!
# Session payloads — the stages of a load on the graph

A load reads the header and the tokens, then the logits straight into the session, then the row
counters, then the tensors, and replaces the checkpoint at the end.  Each stage succeeds under a
condition on the stream and the session; when it fails, this is what it leaves behind.

* `HeadFits`, `exec_loadHead_ok`, `exec_loadHead_error` — header and tokens.
* `exec_loadLogits_ok`, `exec_loadLogits_error` — the logits.
* `CountsFit`, `exec_loadCounts_ok`, `exec_loadCounts_error` — the counters.
* `exec_loadBody` — the tensors.
* `exec_sessionLoadPayload_ok` — the whole load.
-/

open DS4.Lib

variable (sh : Shape) (cg : CtxGrow)

namespace GraphSession

/-! ### Header and tokens -/

/-- Header and tokens are there, and the header fits the runtime. -/
structure HeadFits (g : GraphSession) (fp : Source) : Prop where
  magic : (streamHeader fp).magic = DS4_SESSION_PAYLOAD_MAGIC
  version : (streamHeader fp).version = DS4_SESSION_PAYLOAD_VERSION
  header : headerError sh g.ctxSize g.prefillCap g.rawWindow g.rawCap (streamHeader fp) = none
  compCap : (streamHeader fp).compCap ≤ g.compCapMax
  tokens : 52 + 4 * (streamHeader fp).tokens ≤ fp.avail

variable {sh cg} {g : GraphSession} {fp : Source}

theorem grown_headGrow (h : PayloadHeader) : Grown sh g (g.headGrow sh cg h) := by
  unfold headGrow
  split
  · exact grown_ctxGrowShared _
  · exact Grown.refl g

theorem WellFormed.headGrow (hwf : g.WellFormed sh cg) (h : PayloadHeader) :
    (g.headGrow sh cg h).WellFormed sh cg := by
  unfold GraphSession.headGrow
  split
  · exact hwf.ctxGrowShared _
  · exact hwf

/-- After growing, the comparison is with the ceiling. -/
theorem WellFormed.headGrow_compCap (hwf : g.WellFormed sh cg) (h : PayloadHeader) :
    (g.headGrow sh cg h).compCap < h.compCap ↔ g.compCapMax < h.compCap := by
  have hle := hwf.compCap_le
  have hwf' := (hwf.headGrow h).compCap_le
  rw [(@grown_headGrow sh cg g h).compCapMax] at hwf'
  refine ⟨fun hlt => ?_, fun hlt => by omega⟩
  unfold GraphSession.headGrow at hlt
  split at hlt
  · rename_i hc
    have hroom := @le_ctxGrowShared sh cg g _ hc.2.2
    omega
  · rename_i hc
    cases hen : cg.enabled with
    | true =>
      by_contra hmax
      exact hc ⟨hen, hlt, by omega⟩
    | false =>
      have hfull := (hwf.full hen).1
      omega

/-- The load of the head with the header at hand. -/
theorem exec_loadHead (h52 : 52 ≤ fp.avail)
    (hm : (streamHeader fp).magic = DS4_SESSION_PAYLOAD_MAGIC)
    (hv : (streamHeader fp).version = DS4_SESSION_PAYLOAD_VERSION)
    (he : headerError sh g.ctxSize g.prefillCap g.rawWindow g.rawCap (streamHeader fp) = none) :
    (loadHead sh cg).exec (fp, g) =
      Reader.exec (do
        check (if (g.headGrow sh cg (streamHeader fp)).compCap < (streamHeader fp).compCap then
          some "KV checkpoint compressed cache is larger than current context" else none)
        let words ← readWords (streamHeader fp).tokens
        return (streamHeader fp, words.map i32)) (fp.skip 52, g.headGrow sh cg (streamHeader fp)) := by
  rw [loadHead, Reader.exec_bind_ok (exec_readHeader_ok h52 ⟨hm, hv⟩),
    Reader.exec_bind_ok (Reader.exec_getState _)]
  dsimp only
  rw [he, Reader.exec_bind_ok (exec_check_none _),
    Reader.exec_bind_ok (Reader.exec_modifyState _ _), Reader.exec_bind_ok (Reader.exec_getState _)]

theorem exec_loadHead_ok (hwf : g.WellFormed sh cg) (h : HeadFits sh g fp) :
    (loadHead sh cg).exec (fp, g) =
      (.ok (streamHeader fp, (streamWords (fp.skip 52) (streamHeader fp).tokens).map i32),
        fp.skip (52 + 4 * (streamHeader fp).tokens), g.headGrow sh cg (streamHeader fp)) := by
  have htok := h.tokens
  have hcap : ¬ (g.headGrow sh cg (streamHeader fp)).compCap < (streamHeader fp).compCap := by
    rw [hwf.headGrow_compCap]
    have := h.compCap
    omega
  rw [exec_loadHead (by omega) h.magic h.version h.header, if_neg hcap,
    Reader.exec_bind_ok (exec_check_none _),
    Reader.exec_bind_ok (exec_readWords_ok (by rw [Source.avail_skip]; omega)),
    Source.skip_skip]
  rfl

/-- A load that ends before the logits keeps the session, up to growth. -/
theorem exec_loadHead_error (hwf : g.WellFormed sh cg) (h : ¬ HeadFits sh g fp) :
    ∃ e fp' g', (loadHead sh cg).exec (fp, g) = (.error (.failed e), fp', g') ∧
      Grown sh g g' := by
  by_cases hread : 52 ≤ fp.avail ∧ (streamHeader fp).magic = DS4_SESSION_PAYLOAD_MAGIC ∧
      (streamHeader fp).version = DS4_SESSION_PAYLOAD_VERSION
  · obtain ⟨h52, hm, hv⟩ := hread
    cases he : headerError sh g.ctxSize g.prefillCap g.rawWindow g.rawCap (streamHeader fp) with
    | some msg =>
      rw [loadHead, Reader.exec_bind_ok (exec_readHeader_ok h52 ⟨hm, hv⟩),
        Reader.exec_bind_ok (Reader.exec_getState _)]
      dsimp only
      rw [he]
      exact ⟨_, _, g, Reader.exec_bind_error (exec_check_some _ _), Grown.refl g⟩
    | none =>
      rw [exec_loadHead h52 hm hv he]
      by_cases hcap : (g.headGrow sh cg (streamHeader fp)).compCap < (streamHeader fp).compCap
      · rw [if_pos hcap]
        exact ⟨_, _, _, Reader.exec_bind_error (exec_check_some _ _), grown_headGrow _⟩
      · rw [if_neg hcap, Reader.exec_bind_ok (exec_check_none _)]
        have hshort : (fp.skip 52).avail < 4 * (streamHeader fp).tokens := by
          rw [Source.avail_skip]
          by_contra hle
          rw [hwf.headGrow_compCap] at hcap
          exact h ⟨hm, hv, he, by omega, by omega⟩
        obtain ⟨e, fp', hw⟩ := @exec_readWords_error _ (fp.skip 52)
          (g.headGrow sh cg (streamHeader fp)) _ hshort
        exact ⟨e, fp', _, Reader.exec_bind_error hw, grown_headGrow _⟩
  · obtain ⟨e, fp', he⟩ := @exec_readHeader_error _ fp g hread
    exact ⟨e, fp', g, Reader.exec_bind_error he, Grown.refl g⟩

/-! ### Logits -/

theorem exec_loadLogits_ok (h : sh.logitsBytes ≤ fp.avail)
    (hlen : g.logits.length = sh.logitsBytes) :
    (loadLogits sh).exec (fp, g) =
      (.ok (), fp.skip sh.logitsBytes, { g with logits := fp.peek sh.logitsBytes }) := by
  have hall := tornLogits_of_avail h hlen
  unfold Source.avail at h
  rw [tornLogits, if_neg (by omega)] at hall
  have hstep := @exec_payloadReadInto_ok _ fp g sh.logitsBytes
    (fun bytes g => .ok { g with logits := splice g.logits 0 bytes }) _ h rfl
  rw [hall] at hstep
  exact hstep

theorem exec_loadLogits_error (h : fp.avail < sh.logitsBytes) :
    ∃ e fp', (loadLogits sh).exec (fp, g) =
      (.error (.failed e), fp', { g with logits := tornLogits sh g.logits fp }) := by
  unfold tornLogits
  by_cases hrem : fp.remaining < sh.logitsBytes
  · rw [if_pos hrem]
    exact ⟨_, _, exec_payloadReadInto_short hrem⟩
  · rw [if_neg hrem]
    obtain ⟨fp', he⟩ := @exec_payloadReadInto_torn _ fp g sh.logitsBytes
      (fun bytes g => .ok { g with logits := splice g.logits 0 bytes }) _ (by omega) h rfl
    exact ⟨_, fp', he⟩

/-! ### Counters -/

theorem WellFormed.layerGrow (hwf : g.WellFormed sh cg) (il v : Nat) :
    (g.layerGrow sh cg il v).WellFormed sh cg := by
  unfold GraphSession.layerGrow
  split
  · exact hwf.ctxGrowLayer il v
  · exact hwf

theorem grown_layerGrow (hwf : g.WellFormed sh cg) (il v : Nat) :
    Grown sh g (g.layerGrow sh cg il v) := by
  unfold layerGrow
  split
  · exact grown_ctxGrowLayer hwf il v
  · exact Grown.refl g

/-- After growing, the comparison is with the ceiling of the layer. -/
theorem WellFormed.countFits_layerGrow (hwf : g.WellFormed sh cg) (h : PayloadHeader) {il : Nat}
    (hil : il < sh.nLayer) (v : Nat) :
    countFits h il v (g.layerGrow sh cg il v) = true ↔ v ≤ h.compCap ∧ v ≤ g.layerCompCapMax il := by
  have hle := (hwf.layerGrow il v).layerCompCap_le il hil
  rw [(grown_layerGrow hwf il v).layerCompCapMax] at hle
  have hroom : v ≤ g.layerCompCapMax il → v ≤ (g.layerGrow sh cg il v).layerCompCap il := by
    intro hv
    unfold GraphSession.layerGrow
    split
    · rename_i hc
      have hr : sh.ratio il ≠ 0 := by
        intro h0
        have hmax := hwf.layerCompCapMax il hil
        rw [if_pos h0] at hmax
        omega
      exact le_ctxGrowLayer hr hv
    · rename_i hc
      cases hen : cg.enabled with
      | true =>
        by_contra hlt
        exact hc ⟨hen, by omega, hv⟩
      | false =>
        have hfull := (hwf.full hen).2 il hil
        omega
  unfold countFits
  rw [decide_eq_true_iff]
  constructor
  · exact fun hc => ⟨hc.1, hc.2.trans hle⟩
  · exact fun hc => ⟨hc.1, hroom hc.2⟩

/-- The session after room is made for all counters. -/
theorem growAll_spec (hwf : g.WellFormed sh cg) (ils vs : List Nat) :
    (growAll (layerGrow sh cg) ils vs g).WellFormed sh cg ∧
      Grown sh g (growAll (layerGrow sh cg) ils vs g) := by
  induction ils generalizing vs g with
  | nil => exact ⟨hwf, Grown.refl g⟩
  | cons il ils ih =>
    cases vs with
    | nil => exact ⟨hwf, Grown.refl g⟩
    | cons v vs =>
      obtain ⟨hwf', hgrown⟩ := ih (hwf.layerGrow il v) vs
      exact ⟨hwf', (grown_layerGrow hwf il v).trans hgrown⟩

/-- **All counters fit** exactly when none exceeds the header's capacity or its layer's ceiling. -/
theorem allFit_layerGrow (hwf : g.WellFormed sh cg) (h : PayloadHeader) {ils vs : List Nat}
    (hils : ∀ il ∈ ils, il < sh.nLayer) :
    AllFit (layerGrow sh cg) (countFits h) ils vs g ↔
      ∀ p ∈ ils.zip vs, p.2 ≤ h.compCap ∧ p.2 ≤ g.layerCompCapMax p.1 := by
  induction ils generalizing vs g with
  | nil => exact ⟨fun _ p hp => absurd hp List.not_mem_nil, fun _ => trivial⟩
  | cons il ils ih =>
    cases vs with
    | nil => exact ⟨fun _ p hp => absurd hp List.not_mem_nil, fun _ => trivial⟩
    | cons v vs =>
      have hrest := @ih _ (hwf.layerGrow il v) vs fun jl hjl =>
        hils jl (List.mem_cons_of_mem _ hjl)
      rw [(grown_layerGrow hwf il v).layerCompCapMax] at hrest
      rw [List.zip_cons_cons, List.forall_mem_cons]
      unfold AllFit
      rw [hrest, hwf.countFits_layerGrow h (hils il List.mem_cons_self)]

/-- Afterwards there is room for every counter. -/
theorem le_growAll (hwf : g.WellFormed sh cg) (h : PayloadHeader) {ils vs : List Nat}
    (hfit : AllFit (layerGrow sh cg) (countFits h) ils vs g) :
    ∀ p ∈ ils.zip vs, p.2 ≤ (growAll (layerGrow sh cg) ils vs g).layerCompCap p.1 := by
  induction ils generalizing vs g with
  | nil => exact fun p hp => absurd hp List.not_mem_nil
  | cons il ils ih =>
    cases vs with
    | nil => exact fun p hp => absurd hp List.not_mem_nil
    | cons v vs =>
      obtain ⟨hhead, htail⟩ := hfit
      have hwf' := hwf.layerGrow il v
      rw [List.zip_cons_cons, List.forall_mem_cons]
      refine ⟨?_, ih hwf' htail⟩
      unfold countFits at hhead
      rw [decide_eq_true_iff] at hhead
      exact hhead.2.trans ((growAll_spec hwf' ils vs).2.layerCompCap_le il)

/-- The session once there is room for the counters that come next in the stream. -/
def countsGrow (sh : Shape) (cg : CtxGrow) (g : GraphSession) (fp : Source) : GraphSession :=
  growAll (layerGrow sh cg) (List.range sh.nLayer) (streamWords fp sh.nLayer) g

/-- The counters are there and fit. -/
structure CountsFit (sh : Shape) (cg : CtxGrow) (h : PayloadHeader) (g : GraphSession)
    (fp : Source) : Prop where
  size : 4 * sh.nLayer + 4 * sh.nLayer ≤ fp.avail
  nComp : ∀ p ∈ (List.range sh.nLayer).zip (streamWords fp sh.nLayer),
    p.2 ≤ h.compCap ∧ p.2 ≤ g.layerCompCapMax p.1
  nIndexComp : ∀ p ∈ (List.range sh.nLayer).zip (streamWords (fp.skip (4 * sh.nLayer)) sh.nLayer),
    p.2 ≤ h.compCap ∧ p.2 ≤ (g.countsGrow sh cg fp).layerCompCap p.1

theorem exec_loadCounts_ok (hwf : g.WellFormed sh cg) {h : PayloadHeader}
    (hc : CountsFit sh cg h g fp) :
    (loadCounts sh cg h).exec (fp, g) =
      (.ok (streamWords fp sh.nLayer, streamWords (fp.skip (4 * sh.nLayer)) sh.nLayer),
        fp.skip (4 * sh.nLayer + 4 * sh.nLayer), g.countsGrow sh cg fp) := by
  have hlen : (List.range sh.nLayer).length = sh.nLayer := List.length_range
  have hsize := hc.size
  have hfit : AllFit (layerGrow sh cg) (countFits h) (List.range sh.nLayer)
      (streamWords fp (List.range sh.nLayer).length) g := by
    rw [hlen, allFit_layerGrow hwf h fun il hil => List.mem_range.mp hil]
    exact hc.nComp
  have hfirst := @exec_readCounts_ok _ fp g "KV checkpoint has invalid compressed row count" _ _
    (List.range sh.nLayer) (by rw [hlen]; omega) hfit
  have hfit' : AllFit (fun _ _ g => g) (countFits h) (List.range sh.nLayer)
      (streamWords (fp.skip (4 * sh.nLayer)) (List.range sh.nLayer).length)
      (g.countsGrow sh cg fp) := by
    rw [hlen, allFit_const]
    intro p hp
    unfold countFits
    rw [decide_eq_true_iff]
    exact hc.nIndexComp p hp
  have hsecond := @exec_readCounts_ok _ (fp.skip (4 * sh.nLayer)) (g.countsGrow sh cg fp)
    "KV checkpoint has invalid indexer row count" _ _ (List.range sh.nLayer)
    (by rw [hlen, Source.avail_skip]; omega) hfit'
  rw [hlen] at hfirst hsecond
  rw [← countsGrow] at hfirst
  rw [Source.skip_skip, growAll_const] at hsecond
  unfold loadCounts
  rw [Reader.exec_bind_ok hfirst, Reader.exec_bind_ok hsecond]
  rfl

/-- Counters that do not fit are refused, and the layers have only grown. -/
theorem exec_loadCounts_error (hwf : g.WellFormed sh cg) {h : PayloadHeader}
    (hc : ¬ CountsFit sh cg h g fp) :
    ∃ e fp' g', (loadCounts sh cg h).exec (fp, g) = (.error (.failed e), fp', g') ∧
      Grown sh g g' := by
  have hlen : (List.range sh.nLayer).length = sh.nLayer := List.length_range
  unfold loadCounts
  by_cases hfirst : 4 * (List.range sh.nLayer).length ≤ fp.avail ∧
      AllFit (layerGrow sh cg) (countFits h) (List.range sh.nLayer)
        (streamWords fp (List.range sh.nLayer).length) g
  · have hok := @exec_readCounts_ok _ fp g "KV checkpoint has invalid compressed row count" _ _
      _ hfirst.1 hfirst.2
    obtain ⟨hav, hfit⟩ := hfirst
    rw [hlen] at hok hav hfit
    rw [← countsGrow] at hok
    have hsecond : ¬ (4 * (List.range sh.nLayer).length ≤ (fp.skip (4 * sh.nLayer)).avail ∧
        AllFit (fun _ _ g => g) (countFits h) (List.range sh.nLayer)
          (streamWords (fp.skip (4 * sh.nLayer)) (List.range sh.nLayer).length)
          (g.countsGrow sh cg fp)) := by
      rw [hlen, allFit_const, Source.avail_skip]
      rintro ⟨hav', hfit'⟩
      refine hc ⟨by omega, (allFit_layerGrow hwf h fun il hil => List.mem_range.mp hil).mp hfit, ?_⟩
      intro p hp
      have hone := hfit' p hp
      unfold countFits at hone
      rw [decide_eq_true_iff] at hone
      exact hone
    obtain ⟨e, fp', g', he, hR⟩ := @exec_readCounts_error _ _ _
      "KV checkpoint has invalid indexer row count" _ _ (Grown sh) (@Grown.refl sh)
      (fun il v hr => hr) _ hsecond
    rw [Reader.exec_bind_ok hok]
    refine ⟨e, fp', g', Reader.exec_bind_error he, ?_⟩
    exact (growAll_spec hwf _ _).2.trans hR
  · -- the invariant of the loop carries that the session stays well formed
    obtain ⟨e, fp', g', he, hR⟩ := @exec_readCounts_error _ _ _
      "KV checkpoint has invalid compressed row count" (layerGrow sh cg) _
      (fun g g' => g.WellFormed sh cg → g'.WellFormed sh cg ∧ Grown sh g g')
      (fun g hg => ⟨hg, Grown.refl g⟩)
      (fun il v hr hg => ⟨(hr hg).1.layerGrow il v, (hr hg).2.trans (grown_layerGrow (hr hg).1 il v)⟩)
      _ hfirst
    exact ⟨e, fp', g', Reader.exec_bind_error he, (hR hwf).2⟩

/-! ### Tensors -/

/-- **The body** of a payload: the chunks of its spans, in order. -/
theorem exec_loadBody {h : PayloadHeader} {nComp nIndexComp : List Nat}
    (hfit : ∀ s ∈ bodySpans sh g.rawCap (h.tokens - h.rawLive) h.rawLive
      (fun il => nComp.getD il 0) (fun il => nIndexComp.getD il 0), s.Fits g.buf) :
    Reader.exec (forM (List.range sh.nLayer) (loadLayer sh h nComp nIndexComp)) (fp, g) =
      Reader.exec (forM (chunks (bodySpans sh g.rawCap (h.tokens - h.rawLive) h.rawLive
        (fun il => nComp.getD il 0) (fun il => nIndexComp.getD il 0))) readPiece) (fp, g) := by
  let spans := fun il => (layerBuffers il).flatMap
    (bufSpans sh g.rawCap (h.tokens - h.rawLive) h.rawLive (fun il => nComp.getD il 0)
      (fun il => nIndexComp.getD il 0))
  have hall : (List.range sh.nLayer).flatMap (fun il => chunks (spans il)) =
      chunks (bodySpans sh g.rawCap (h.tokens - h.rawLive) h.rawLive
        (fun il => nComp.getD il 0) (fun il => nIndexComp.getD il 0)) := by
    simp only [spans, bodySpans, bodyBuffers, chunks, List.flatMap_assoc]
  rw [← hall]
  refine @exec_forM_chunks _ (loadLayer sh h nComp nIndexComp) _
    (fun il m => ∀ s ∈ spans il, s.Fits m) g.rawCap
    (fun il m m' hm hs s hmem => fits_of_length hm (hs s hmem)) (fun il m hs => chunks_fit hs)
    (fun il fp g' hcap hs => ?_) _ fp g rfl fun il hil s hs => ?_
  · rw [exec_loadLayer, hcap,
      exec_forM_readSpan fun s hmem => hs s (layerSpans_sub hmem), chunks_layerSpans]
  · refine hfit s ?_
    obtain ⟨b, hb, hs⟩ := List.mem_flatMap.mp hs
    exact List.mem_flatMap.mpr ⟨b, List.mem_flatMap.mpr ⟨il, hil, hb⟩, hs⟩

/-! ### The stages together -/

/-- Where the caches of the payload go in this session. -/
def streamSpans (sh : Shape) (g : GraphSession) (fp : Source) : List (Span Buffer) :=
  bodySpans sh g.rawCap ((streamHeader fp).tokens - (streamHeader fp).rawLive)
    (streamHeader fp).rawLive (streamNComp sh fp) (streamNIndexComp sh fp)

/-- The session with the new logits. -/
def withLogits (sh : Shape) (cg : CtxGrow) (g : GraphSession) (fp : Source) : GraphSession :=
  { g.headGrow sh cg (streamHeader fp) with logits := (tokensEnd fp).peek sh.logitsBytes }

/-- The session with room for the caches. -/
def withRoom (sh : Shape) (cg : CtxGrow) (g : GraphSession) (fp : Source) : GraphSession :=
  (g.withLogits sh cg fp).countsGrow sh cg (logitsEnd sh fp)

/-- The session with the caches, or with as many of their chunks as the stream has. -/
def withBody (sh : Shape) (cg : CtxGrow) (g : GraphSession) (fp : Source) : GraphSession :=
  readBuf (g.withRoom sh cg fp) (chunks (g.streamSpans sh fp)) (countsEnd sh fp)

/-- The logits are there, and the counters behind them fit. -/
def CountsReached (sh : Shape) (cg : CtxGrow) (g : GraphSession) (fp : Source) : Prop :=
  sh.logitsBytes ≤ (tokensEnd fp).avail ∧
    CountsFit sh cg (streamHeader fp) (g.withLogits sh cg fp) (logitsEnd sh fp)

theorem sum_len_bodySpans (rawCap first rawLive : Nat) (nComp nIndexComp : Nat → Nat) :
    ((bodySpans sh rawCap first rawLive nComp nIndexComp).map Span.len).sum =
      ((bodyBuffers sh).map (liveBytes sh rawLive nComp nIndexComp)).sum := by
  rw [bodySpans, List.map_flatMap, List.flatMap, List.sum_flatten, List.map_map]
  congr 1
  exact List.map_congr_left fun b _ => sum_len_bufSpans b

theorem sum_len_streamSpans : ((chunks (g.streamSpans sh fp)).map Span.len).sum = bodyBytes sh fp := by
  rw [sum_len_chunks]
  exact sum_len_bodySpans ..

theorem WellFormed.withLogits (hwf : g.WellFormed sh cg)
    (h : sh.logitsBytes ≤ (tokensEnd fp).avail) : (g.withLogits sh cg fp).WellFormed sh cg :=
  { hwf.headGrow (streamHeader fp) with logits := Source.peek_length_of_avail h }

theorem HeadFits.rawLive_le (h : HeadFits sh g fp) : (streamHeader fp).rawLive ≤ g.rawCap :=
  ((headerError_eq_none_iff).mp h.header).rawLive_le

/-- **Room.** The spans of a payload whose counters fit lie in the tensors. -/
theorem streamSpans_fit (hwf : g.WellFormed sh cg) (hh : HeadFits sh g fp)
    (hc : CountsReached sh cg g fp) :
    ∀ s ∈ g.streamSpans sh fp, s.Fits (g.withRoom sh cg fp).buf := by
  obtain ⟨hlog, hfit⟩ := hc
  have hwf' := @WellFormed.withLogits sh cg g fp hwf hlog
  obtain ⟨hroom, hgrown⟩ := growAll_spec hwf' (List.range sh.nLayer)
    (streamWords (logitsEnd sh fp) sh.nLayer)
  have hcap : (g.withRoom sh cg fp).rawCap = g.rawCap :=
    hgrown.rawCap.trans (grown_headGrow (streamHeader fp)).rawCap
  have hall := (allFit_layerGrow hwf' (streamHeader fp) fun il hil => List.mem_range.mp hil).mpr
    hfit.nComp
  intro s hs
  refine @bodySpans_fit sh _ _ _ _ _ (g.withRoom sh cg fp).layerCompCap _ ?_ hh.rawLive_le ?_ ?_ _ hs
  · rw [← hcap]
    exact hroom.bufs
  · intro il hil
    exact le_growAll hwf' (streamHeader fp) hall _ (getD_zip_range hil (streamWords_length _ _))
  · intro il hil
    exact (hfit.nIndexComp _ (getD_zip_range hil (streamWords_length _ _))).2

/-- The load once the counters are read. -/
theorem exec_load_body (hwf : g.WellFormed sh cg) (hh : HeadFits sh g fp)
    (hc : CountsReached sh cg g fp) :
    (sessionLoadPayload sh cg).exec (fp, g) =
      Reader.exec (do
        forM (chunks (g.streamSpans sh fp)) readPiece
        let left ← Reader.getRemaining
        check (if left ≠ 0 then some "KV checkpoint has trailing payload bytes" else none)
        Reader.modifyState (commit sh (streamTokens fp)
          (streamWords (logitsEnd sh fp) sh.nLayer)
          (streamWords ((logitsEnd sh fp).skip (4 * sh.nLayer)) sh.nLayer)))
        (countsEnd sh fp, g.withRoom sh cg fp) := by
  have hfit := streamSpans_fit hwf hh hc
  obtain ⟨hlog, hcounts⟩ := hc
  have hwf' := @WellFormed.withLogits sh cg g fp hwf hlog
  have hcap : (g.withRoom sh cg fp).rawCap = g.rawCap :=
    (growAll_spec hwf' _ _).2.rawCap.trans (grown_headGrow (streamHeader fp)).rawCap
  have hhead := exec_loadHead_ok hwf hh
  have hlogits := exec_loadLogits_ok hlog (hwf.headGrow (streamHeader fp)).logits
  have hcount := exec_loadCounts_ok hwf' hcounts
  have hbody := @exec_loadBody sh (g.withRoom sh cg fp) (countsEnd sh fp) (streamHeader fp)
    (streamWords (logitsEnd sh fp) sh.nLayer)
    (streamWords ((logitsEnd sh fp).skip (4 * sh.nLayer)) sh.nLayer)
    (by rw [hcap]; exact hfit)
  rw [hcap] at hbody
  unfold sessionLoadPayload
  rw [Reader.exec_bind_ok hhead]
  show Reader.exec (loadLogits sh >>= _)
    (tokensEnd fp, g.headGrow sh cg (streamHeader fp)) = _
  rw [Reader.exec_bind_ok hlogits]
  show Reader.exec (loadCounts sh cg (streamHeader fp) >>= _)
    (logitsEnd sh fp, g.withLogits sh cg fp) = _
  rw [Reader.exec_bind_ok hcount]
  show Reader.exec (_ >>= _) (countsEnd sh fp, g.withRoom sh cg fp) = _
  by_cases hav : bodyBytes sh fp ≤ (countsEnd sh fp).avail
  · rw [← @sum_len_streamSpans sh g] at hav
    have hok := exec_forM_readPiece_ok (g := g.withRoom sh cg fp) hav
    rw [Reader.exec_bind_ok (hbody.trans hok), Reader.exec_bind_ok hok]
    rfl
  · rw [← @sum_len_streamSpans sh g] at hav
    obtain ⟨e, fp', he⟩ := exec_forM_readPiece_error (g := g.withRoom sh cg fp)
      (Nat.lt_of_not_le hav)
    rw [Reader.exec_bind_error (hbody.trans he), Reader.exec_bind_error he]

/-- What a load accepts: everything is there, fits, and uses the declared length up. -/
structure Accepts (sh : Shape) (cg : CtxGrow) (g : GraphSession) (fp : Source) : Prop where
  head : HeadFits sh g fp
  counts : CountsReached sh cg g fp
  body : bodyBytes sh fp ≤ (countsEnd sh fp).avail
  whole : (countsEnd sh fp).remaining = bodyBytes sh fp

/-- The session after an accepted load. -/
def loaded (sh : Shape) (cg : CtxGrow) (g : GraphSession) (fp : Source) : GraphSession :=
  commit sh (streamTokens fp) (streamWords (logitsEnd sh fp) sh.nLayer)
    (streamWords ((logitsEnd sh fp).skip (4 * sh.nLayer)) sh.nLayer) (g.withBody sh cg fp)

/-- **An accepted load.** -/
theorem exec_sessionLoadPayload_ok (hwf : g.WellFormed sh cg) (h : Accepts sh cg g fp) :
    (sessionLoadPayload sh cg).exec (fp, g) =
      (.ok (), (countsEnd sh fp).skip (bodyBytes sh fp), g.loaded sh cg fp) := by
  have hbody := h.body
  have hleft : ((countsEnd sh fp).skip (bodyBytes sh fp)).remaining = 0 := by
    have hwhole := h.whole
    rw [Source.skip_remaining]
    omega
  rw [← @sum_len_streamSpans sh g] at hbody
  have hok := exec_forM_readPiece_ok (g := g.withRoom sh cg fp) hbody
  rw [exec_load_body hwf h.head h.counts, Reader.exec_bind_ok hok,
    Reader.exec_bind_ok (Reader.exec_getRemaining _), sum_len_streamSpans]
  dsimp only
  rw [hleft]
  rfl

/-- **A refused load**: it ends before the logits, in them, in the counters, or behind them. -/
theorem exec_sessionLoadPayload_error (hwf : g.WellFormed sh cg) (h : ¬ Accepts sh cg g fp) :
    ∃ e fp' g', (sessionLoadPayload sh cg).exec (fp, g) = (.error (.failed e), fp', g') ∧
      (¬ HeadFits sh g fp ∧ Grown sh g g' ∨
        HeadFits sh g fp ∧
          ((tokensEnd fp).avail < sh.logitsBytes ∧
              g' = { g.headGrow sh cg (streamHeader fp) with
                logits := tornLogits sh (g.headGrow sh cg (streamHeader fp)).logits (tokensEnd fp) } ∨
            sh.logitsBytes ≤ (tokensEnd fp).avail ∧ ¬ CountsReached sh cg g fp ∧
              Grown sh (g.withLogits sh cg fp) g' ∨
            CountsReached sh cg g fp ∧ g' = g.withBody sh cg fp)) := by
  by_cases hh : HeadFits sh g fp
  · have hhead := exec_loadHead_ok hwf hh
    by_cases hlog : sh.logitsBytes ≤ (tokensEnd fp).avail
    · have hlogits := exec_loadLogits_ok hlog (hwf.headGrow (streamHeader fp)).logits
      by_cases hc : CountsReached sh cg g fp
      · rw [exec_load_body hwf hh hc]
        by_cases hav : bodyBytes sh fp ≤ (countsEnd sh fp).avail
        -- everything is there, but bytes are left over
        · have hleft : ((countsEnd sh fp).skip (bodyBytes sh fp)).remaining ≠ 0 := by
            intro h0
            rw [Source.skip_remaining] at h0
            have hle := hav
            unfold Source.avail at hle
            exact h ⟨hh, hc, hav, by omega⟩
          rw [← @sum_len_streamSpans sh g] at hav
          have hok := exec_forM_readPiece_ok (g := g.withRoom sh cg fp) hav
          rw [Reader.exec_bind_ok hok, Reader.exec_bind_ok (Reader.exec_getRemaining _),
            sum_len_streamSpans]
          dsimp only
          rw [if_pos hleft]
          exact ⟨_, _, _, Reader.exec_bind_error (exec_check_some _ _),
            Or.inr ⟨hh, Or.inr (Or.inr ⟨hc, rfl⟩)⟩⟩
        · rw [← @sum_len_streamSpans sh g] at hav
          obtain ⟨e, fp', he⟩ := exec_forM_readPiece_error (g := g.withRoom sh cg fp)
            (Nat.lt_of_not_le hav)
          exact ⟨e, fp', _, Reader.exec_bind_error he, Or.inr ⟨hh, Or.inr (Or.inr ⟨hc, rfl⟩)⟩⟩
      · obtain ⟨e, fp', g', he, hg⟩ := @exec_loadCounts_error sh cg (g.withLogits sh cg fp)
          (logitsEnd sh fp) (hwf.withLogits hlog) (streamHeader fp) fun hcf => hc ⟨hlog, hcf⟩
        refine ⟨e, fp', g', ?_, Or.inr ⟨hh, Or.inr (Or.inl ⟨hlog, hc, hg⟩)⟩⟩
        unfold sessionLoadPayload
        rw [Reader.exec_bind_ok hhead]
        show Reader.exec (loadLogits sh >>= _)
          (tokensEnd fp, g.headGrow sh cg (streamHeader fp)) = _
        rw [Reader.exec_bind_ok hlogits]
        exact Reader.exec_bind_error he
    · obtain ⟨e, fp', he⟩ := @exec_loadLogits_error sh (g.headGrow sh cg (streamHeader fp))
        (tokensEnd fp) (by omega)
      refine ⟨e, fp', _, ?_, Or.inr ⟨hh, Or.inl ⟨by omega, rfl⟩⟩⟩
      unfold sessionLoadPayload
      rw [Reader.exec_bind_ok hhead]
      exact Reader.exec_bind_error he
  · obtain ⟨e, fp', g', he, hg⟩ := exec_loadHead_error hwf hh
    exact ⟨e, fp', g', Reader.exec_bind_error he, Or.inl ⟨hh, hg⟩⟩

end GraphSession

end DS4.Checkpoint
