import DS4.Checkpoint.GraphLoad

namespace DS4.Checkpoint

/-!
# Session payloads — loading an encoded checkpoint on the graph

* `GraphSession.accepts_encoded` — a session that admits it accepts it.
* `GraphSession.content_loaded` — and then says the same, wherever its ring keeps the rows.
-/

open DS4.Lib

variable {sh : Shape} {cg : CtxGrow}

theorem bufSpans_congr {rawCap first rawLive : Nat}
    {nComp nComp' nIndexComp nIndexComp' : Nat → Nat} {b : Buffer}
    (hc : nComp b.layer = nComp' b.layer) (hi : nIndexComp b.layer = nIndexComp' b.layer) :
    bufSpans sh rawCap first rawLive nComp nIndexComp b =
      bufSpans sh rawCap first rawLive nComp' nIndexComp' b := by
  cases b with
  | rawKv il => rfl
  | _ =>
    show [(⟨_, _, _⟩ : Span Buffer)] = [⟨_, _, _⟩]
    rw [liveBytes_congr hc hi]

namespace GraphSession

variable {g : GraphSession} {c : Content} {h : PayloadHeader} {fp : Source}

/-- What a session needs to take a payload. -/
structure Admits (sh : Shape) (g : GraphSession) (c : Content) (h : PayloadHeader) : Prop where
  magic : h.magic = DS4_SESSION_PAYLOAD_MAGIC
  version : h.version = DS4_SESSION_PAYLOAD_VERSION
  header : headerError sh g.ctxSize g.prefillCap g.rawWindow g.rawCap h = none
  compCap : h.compCap ≤ g.compCapMax
  nComp : ∀ il < sh.nLayer, c.nComp il ≤ h.compCap ∧ c.nComp il ≤ g.layerCompCapMax il
  nIndexComp : ∀ il < sh.nLayer, c.nIndexComp il ≤ c.nComp il

/-- **Accepted.** -/
theorem accepts_encoded (hwf : g.WellFormed sh cg) (he : c.Encoded sh h fp)
    (ha : g.Admits sh c h) : Accepts sh cg g fp := by
  have hlog := he.logits_next.le_avail
  rw [he.sized.logits] at hlog
  have hwf' := @WellFormed.withLogits sh cg g fp hwf hlog
  have hcaps : (g.withLogits sh cg fp).layerCompCapMax = g.layerCompCapMax :=
    (grown_headGrow (streamHeader fp)).layerCompCapMax
  have hnComp : ∀ p ∈ (List.range sh.nLayer).zip (streamWords (logitsEnd sh fp) sh.nLayer),
      p.2 ≤ (streamHeader fp).compCap ∧ p.2 ≤ (g.withLogits sh cg fp).layerCompCapMax p.1 := by
    intro p hp
    rw [he.nComp_words] at hp
    obtain ⟨hil, hv⟩ := mem_zip_range hp
    rw [he.header, hcaps, hv]
    exact ha.nComp _ hil
  have hroom := le_growAll hwf' (streamHeader fp)
    ((allFit_layerGrow hwf' (streamHeader fp) fun il hil => List.mem_range.mp hil).mpr hnComp)
  have hnext := he.next.le_avail
  have hbody := he.body_next.le_avail
  have hav : (logitsEnd sh fp).avail = fp.avail - (putWords h.words ++
      putWords (c.tokens.map u32) ++ c.logits).length := by
    rw [he.logitsEnd_eq, Source.avail_skip]
  refine ⟨⟨?_, ?_, ?_, ?_, ?_⟩, ⟨hlog, ?_, hnComp, ?_⟩, ?_, ?_⟩
  · rw [he.header]
    exact ha.magic
  · rw [he.header]
    exact ha.version
  · rw [he.header]
    exact ha.header
  · rw [he.header]
    exact ha.compCap
  · rw [he.header, he.tokens]
    rw [Content.length_encode sh he.sized] at hnext
    omega
  · rw [hav]
    simp only [Content.encode, List.length_append, putWords_length, List.length_map,
      List.length_range] at hnext ⊢
    omega
  · intro p hp
    rw [he.nIndexComp_words] at hp
    obtain ⟨hil, hv⟩ := mem_zip_range hp
    have hle := ha.nIndexComp _ hil
    have hc := ha.nComp _ hil
    have hroomp := hroom (p.1, c.nComp p.1) (by
      have hmem := getD_zip_range hil (streamWords_length (logitsEnd sh fp) sh.nLayer)
      rw [he.nComp_words, Content.Encoded.getD_map_range hil] at hmem
      rw [he.nComp_words]
      exact hmem)
    rw [he.header, hv]
    exact ⟨by omega, hle.trans hroomp⟩
  · rw [he.bodyBytes_eq]
    exact hbody
  · rw [he.body_declared, he.bodyBytes_eq]

/-- The chunks of an accepted payload are written with its bytes. -/
theorem read_withBody (hwf : g.WellFormed sh cg) (he : c.Encoded sh h fp) (ha : g.Admits sh c h) :
    (g.streamSpans sh fp).flatMap (·.read (g.withBody sh cg fp).buf) =
      (bodyBuffers sh).flatMap c.live := by
  have hacc := accepts_encoded hwf he ha
  have hfit := chunks_fit (streamSpans_fit hwf hacc.head hacc.counts)
  have hlen : ((bodyBuffers sh).flatMap c.live).length =
      ((chunks (g.streamSpans sh fp)).map Span.len).sum := by
    rw [sum_len_streamSpans, he.bodyBytes_eq]
  obtain ⟨rest, hrest⟩ := he.body_next.pre
  have hbuf : (g.withBody sh cg fp).buf =
      writeAll (g.withRoom sh cg fp).buf
        (assign (chunks (g.streamSpans sh fp)) ((bodyBuffers sh).flatMap c.live)) := by
    show writeAll _ (assign (within _ _) _) = _
    rw [within_eq_self (by rw [sum_len_streamSpans]; exact hacc.body), ← hrest,
      assign_append _ hlen.ge]
  rw [← flatMap_read_chunks, hbuf]
  refine flatMap_read_writeAll_assign hfit ?_ hlen
  exact pairwise_flatMap_pieces (bodySpans_pairwise hacc.head.rawLive_le)

/-- Making room changes nothing but room, apart from the logits. -/
theorem grown_withRoom (hwf : g.WellFormed sh cg) (hlog : sh.logitsBytes ≤ (tokensEnd fp).avail) :
    Grown sh g { g.withRoom sh cg fp with logits := g.logits } := by
  have hgrown := (growAll_spec (hwf.withLogits hlog) (List.range sh.nLayer)
    (streamWords (logitsEnd sh fp) sh.nLayer)).2
  have hhead := @grown_headGrow sh cg g (streamHeader fp)
  have hhost : (g.withRoom sh cg fp).toHost = (g.withLogits sh cg fp).toHost := hgrown.host
  have hlog : ({ g.withRoom sh cg fp with logits := g.logits } : GraphSession).toHost =
      g.toHost := by
    show { (g.withRoom sh cg fp).toHost with logits := g.logits } = g.toHost
    rw [hhost]
    show { (g.headGrow sh cg (streamHeader fp)).toHost with logits := g.logits } = g.toHost
    rw [hhead.host]
  exact { host := hlog
          rawCap := hgrown.rawCap.trans hhead.rawCap
          rawWindow := hgrown.rawWindow.trans hhead.rawWindow
          compCapMax := hgrown.compCapMax.trans hhead.compCapMax
          layerCompCapMax := hgrown.layerCompCapMax.trans hhead.layerCompCapMax
          nComp := hgrown.nComp.trans hhead.nComp
          nIndexComp := hgrown.nIndexComp.trans hhead.nIndexComp
          mtpNRaw := hgrown.mtpNRaw.trans hhead.mtpNRaw
          compCap_le := hhead.compCap_le.trans hgrown.compCap_le
          layerCompCap_le := fun il =>
            (hhead.layerCompCap_le il).trans (hgrown.layerCompCap_le il)
          buf := fun b hb => by
            have hb2 := hgrown.buf b hb
            have hb1 := hhead.buf b hb
            have hraw : (g.withLogits sh cg fp).rawCap = g.rawCap := hhead.rawCap
            have hn : (g.withLogits sh cg fp).nComp = g.nComp := hhead.nComp
            have hi : (g.withLogits sh cg fp).nIndexComp = g.nIndexComp := hhead.nIndexComp
            rw [hraw, hn, hi] at hb2
            exact hb2.trans hb1 }

/-- The sizes of the session stay. -/
theorem wellFormed_loaded (hwf : g.WellFormed sh cg) (hacc : Accepts sh cg g fp) :
    (g.loaded sh cg fp).WellFormed sh cg := by
  have hwf' := @WellFormed.withLogits sh cg g fp hwf hacc.counts.1
  have hroom := (growAll_spec hwf' (List.range sh.nLayer)
    (streamWords (logitsEnd sh fp) sh.nLayer)).1
  have hfit := chunks_fit (streamSpans_fit hwf hacc.head hacc.counts)
  have hall := (allFit_layerGrow hwf' (streamHeader fp) fun il hil => List.mem_range.mp hil).mpr
    hacc.counts.2.nComp
  refine { hroom with bufs := fun b hb => ?_, nComp_le := fun il hil => ?_,
                      nIndexComp_le := fun il hil => ?_ }
  · exact (readBuf_length hfit b).trans (hroom.bufs b hb)
  · show (if il < sh.nLayer then _ else _) ≤ _
    rw [if_pos hil]
    exact le_growAll hwf' (streamHeader fp) hall _ (getD_zip_range hil (streamWords_length _ _))
  · show (if il < sh.nLayer then _ else _) ≤ _
    rw [if_pos hil]
    exact (hacc.counts.2.nIndexComp _ (getD_zip_range hil (streamWords_length _ _))).2

/-- **Restored.** The session says what the payload says. -/
theorem content_loaded (hwf : g.WellFormed sh cg) (he : c.Encoded sh h fp)
    (ha : g.Admits sh c h) : Content.Same sh ((g.loaded sh cg fp).content sh) c := by
  have hacc := accepts_encoded hwf he ha
  have hwfl := wellFormed_loaded hwf hacc
  have hgrown := @grown_withRoom sh cg g fp hwf hacc.counts.1
  have hlive := ((headerError_eq_none_iff).mp ha.header).rawLive
  have hrawCap : (g.loaded sh cg fp).rawCap = g.rawCap := hgrown.rawCap
  have hwin : (g.loaded sh cg fp).rawWindow = g.rawWindow := hgrown.rawWindow
  have htok : (g.loaded sh cg fp).checkpoint = c.tokens := he.streamTokens_eq
  have hrows : (g.loaded sh cg fp).sessionRawLiveRows sh = h.rawLive := by
    rw [hwfl.sessionRawLiveRows, htok, hwin, hlive, he.tokens]
  have hfirst : (g.loaded sh cg fp).rawFirst sh = h.tokens - h.rawLive := by
    unfold rawFirst
    rw [hrows, htok, he.tokens]
  have hnComp : ∀ il < sh.nLayer, (g.loaded sh cg fp).nComp il = c.nComp il := by
    intro il hil
    show (if il < sh.nLayer then _ else _) = _
    rw [if_pos hil]
    exact he.streamNComp_eq hil
  have hnIndexComp : ∀ il < sh.nLayer, (g.loaded sh cg fp).nIndexComp il = c.nIndexComp il := by
    intro il hil
    show (if il < sh.nLayer then _ else _) = _
    rw [if_pos hil]
    exact he.streamNIndexComp_eq hil
  have hlogits : (g.loaded sh cg fp).logits = c.logits := by
    have hhost : (g.withRoom sh cg fp).toHost = (g.withLogits sh cg fp).toHost :=
      (growAll_spec (hwf.withLogits hacc.counts.1) _ _).2.host
    show (g.withRoom sh cg fp).toHost.logits = _
    rw [hhost]
    exact he.logits_peek
  -- the spans of the loaded session are those the body was written to
  have hlive : ∀ b ∈ bodyBuffers sh, ((g.loaded sh cg fp).content sh).live b =
      (bufSpans sh g.rawCap ((streamHeader fp).tokens - (streamHeader fp).rawLive)
        (streamHeader fp).rawLive (streamNComp sh fp) (streamNIndexComp sh fp) b).flatMap
        (·.read (g.withBody sh cg fp).buf) := by
    intro b hb
    have hlayer := (mem_bodyBuffers sh).mp hb
    show (bufSpans ..).flatMap _ = _
    rw [hrawCap, hrows, hfirst, he.header]
    have hspans := @bufSpans_congr sh g.rawCap (h.tokens - h.rawLive) h.rawLive
      (g.loaded sh cg fp).nComp (streamNComp sh fp) (g.loaded sh cg fp).nIndexComp
      (streamNIndexComp sh fp) b ((hnComp _ hlayer).trans (he.streamNComp_eq hlayer).symm)
      ((hnIndexComp _ hlayer).trans (he.streamNIndexComp_eq hlayer).symm)
    rw [hspans]
    rfl
  have hall := read_withBody hwf he ha
  unfold streamSpans bodySpans at hall
  rw [List.flatMap_assoc] at hall
  have hfit := streamSpans_fit hwf hacc.head hacc.counts
  have hsame := eq_of_flatMap_eq (fun b hb => ?_) hall
  · exact ⟨htok, hlogits, hnComp, hnIndexComp, fun b hb => (hlive b hb).trans (hsame b hb)⟩
  · have hlayer := (mem_bodyBuffers sh).mp hb
    have hread : ∀ s ∈ bufSpans sh g.rawCap ((streamHeader fp).tokens - (streamHeader fp).rawLive)
        (streamHeader fp).rawLive (streamNComp sh fp) (streamNIndexComp sh fp) b,
        s.Fits (g.withBody sh cg fp).buf := fun s hs =>
      fits_of_length (readBuf_length (chunks_fit hfit)) (hfit s (List.mem_flatMap.mpr ⟨b, hb, hs⟩))
    rw [length_flatMap_read hread, sum_len_bufSpans, he.sized.live b hb, he.header]
    exact liveBytes_congr (he.streamNComp_eq hlayer) (he.streamNIndexComp_eq hlayer)

end GraphSession

end DS4.Checkpoint
