import DS4.Checkpoint.CpuLoad

namespace DS4.Checkpoint

/-!
# Session payloads — saving and restoring on the CPU

* `CpuSession.WellFormed`, `CpuSession.Valid`, `CpuSession.content` — as on the graph.
* `CpuSession.Valid.sessionSavePayload_eq` — a payload is the encoding of the content.
* `CpuSession.accepts_encoded`, `CpuSession.content_loaded` — a session that admits an encoded
  content accepts it, and then says the same.
-/

open DS4.Lib

namespace CpuSession

/-- What `kv_cache_init` sets up. -/
structure WellFormed (sh : Shape) (s : CpuSession) : Prop where
  ctx_pos : 0 < s.ctxSize
  ctx_lt : s.ctxSize < 2 ^ 31
  prefillCap_lt : s.prefillCap < 256 ^ 4
  compCap : ∀ il < sh.nLayer, s.compCap il = kvCompCap sh s.ctxSize il
  logits : s.logits.length = sh.logitsBytes
  bufs : HasBuffers sh (sh.defaultRawCap s.ctxSize) (kvCompCap sh s.ctxSize) s.buf
  nRaw_le : ∀ il < sh.nLayer, s.nRaw il ≤ sh.defaultRawCap s.ctxSize
  nComp_le : ∀ il < sh.nLayer, s.nComp il ≤ kvCompCap sh s.ctxSize il
  nIndexComp_le : ∀ il < sh.nLayer, s.nIndexComp il ≤ kvCompCap sh s.ctxSize il

/-- A session with a valid checkpoint. -/
structure Valid (sh : Shape) (s : CpuSession) : Prop extends WellFormed sh s where
  valid : s.checkpointValid = true
  len_lt : s.checkpoint.length < s.ctxSize
  tokens : ∀ t ∈ s.checkpoint, IsInt t
  rawLive_le : ∀ il < sh.nLayer, s.sessionCpuRawLiveRows sh ≤ s.nRaw il
  nIndexComp_le_nComp : ∀ il < sh.nLayer, s.nIndexComp il ≤ s.nComp il

/-- Where the live bytes of a buffer are. -/
def liveSpan (sh : Shape) (s : CpuSession) : Buffer → Span Buffer
  | .rawKv il =>
    ⟨.rawKv il, (s.nRaw il - s.sessionCpuRawLiveRows sh) * sh.rowBytes,
      s.sessionCpuRawLiveRows sh * sh.rowBytes⟩
  | b => ⟨b, 0, liveBytes sh (s.sessionCpuRawLiveRows sh) s.nComp s.nIndexComp b⟩

/-- What a payload of the session says. -/
def content (sh : Shape) (s : CpuSession) : Content where
  tokens := s.checkpoint
  logits := s.logits
  nComp := s.nComp
  nIndexComp := s.nIndexComp
  live := fun b => (s.liveSpan sh b).read s.buf

variable {sh : Shape} {s : CpuSession}

theorem liveSpan_len (b : Buffer) :
    (s.liveSpan sh b).len =
      liveBytes sh (s.sessionCpuRawLiveRows sh) s.nComp s.nIndexComp b := by
  cases b <;> rfl

theorem liveSpan_buf (b : Buffer) : (s.liveSpan sh b).buf = b := by
  cases b <;> rfl

theorem Valid.fits (h : s.Valid sh) {b : Buffer} (hb : b.layer < sh.nLayer) :
    (s.liveSpan sh b).Fits s.buf := by
  have hlen := h.bufs b ((mem_bodyBuffers sh).mpr hb)
  have hlive := h.rawLive_le _ hb
  have hraw := h.nRaw_le _ hb
  unfold Span.Fits
  rw [liveSpan_buf, hlen]
  cases b with
  | rawKv il =>
    show (s.nRaw il - _) * sh.rowBytes + _ * sh.rowBytes ≤ sh.defaultRawCap s.ctxSize * sh.rowBytes
    rw [← Nat.add_mul]
    have hle : s.sessionCpuRawLiveRows sh ≤ s.nRaw il := hlive
    exact Nat.mul_le_mul_right _ (by rw [Nat.sub_add_cancel hle]; exact hraw)
  | _ =>
    rw [show (s.liveSpan sh _).off = 0 from rfl, Nat.zero_add, liveSpan_len]
    exact liveBytes_mono (hlive.trans hraw) (h.nComp_le _ hb) (h.nIndexComp_le _ hb)

theorem kvCompCap_lt (hctx : s.ctxSize < 2 ^ 31) (il : Nat) : kvCompCap sh s.ctxSize il < 256 ^ 4 := by
  have hdiv := Nat.div_le_self s.ctxSize (sh.ratio il)
  unfold kvCompCap
  split <;> omega

/-- **The content of a valid session** has the sizes its counters say. -/
theorem Valid.sized (h : s.Valid sh) : (s.content sh).Sized sh (s.sessionCpuRawLiveRows sh) where
  tokens := h.tokens
  logits := h.logits
  nComp := fun il hil => Nat.lt_of_le_of_lt (h.nComp_le il hil) (kvCompCap_lt h.ctx_lt il)
  nIndexComp := fun il hil =>
    Nat.lt_of_le_of_lt (h.nIndexComp_le il hil) (kvCompCap_lt h.ctx_lt il)
  live := fun b hb =>
    (Span.read_length (h.fits ((mem_bodyBuffers sh).mp hb))).trans (liveSpan_len b)

/-! ### Saving -/

theorem payloadWriteBytes_eq {buf : Buffer → List UInt8} {t : Span Buffer} (h : t.Fits buf) :
    payloadWriteBytes buf t.buf t.off t.len = .ok (t.read buf) := by
  unfold Span.Fits at h
  exact if_neg (by omega)

/-- One buffer other than the raw rows as it is written. -/
theorem Valid.write_live (h : s.Valid sh) {b : Buffer} (hl : b.layer < sh.nLayer)
    (hb : ∀ il, b ≠ .rawKv il) :
    payloadWriteBytes s.buf b 0
        (liveBytes sh (s.sessionCpuRawLiveRows sh) s.nComp s.nIndexComp b) =
      .ok ((s.content sh).live b) := by
  have hspan : s.liveSpan sh b =
      ⟨b, 0, liveBytes sh (s.sessionCpuRawLiveRows sh) s.nComp s.nIndexComp b⟩ := by
    cases b with
    | rawKv il => exact absurd rfl (hb il)
    | _ => rfl
  have hwrite := payloadWriteBytes_eq (h.fits hl)
  rw [hspan] at hwrite
  unfold content
  dsimp only
  rw [hspan]
  exact hwrite

/-- **One layer** as it is written. -/
theorem Valid.saveLayer_eq (h : s.Valid sh) {il : Nat} (hil : il < sh.nLayer) :
    s.saveLayer sh il = .ok ((layerBuffers il).flatMap (s.content sh).live) := by
  have hrows := h.rawLive_le il hil
  have hraw : payloadWriteBytes s.buf (.rawKv il)
      ((s.nRaw il - s.sessionCpuRawLiveRows sh) * sh.rowBytes)
      (s.sessionCpuRawLiveRows sh * sh.rowBytes) = .ok ((s.content sh).live (.rawKv il)) :=
    payloadWriteBytes_eq (h.fits (b := .rawKv il) hil)
  unfold saveLayer
  dsimp only
  rw [if_neg (by omega), hraw, h.sized.layer_eq hil]
  by_cases h0 : sh.ratio il = 0
  · rw [if_pos h0]
    show (if sh.ratio il = 0 then _ else _ : Except LoadError (List UInt8)) = _
    rw [if_pos h0]
    rfl
  · have hcomp := h.write_live (b := .attnCompKv il) hil (by simp)
    have hkv := h.write_live (b := .attnStateKv il) hil (by simp)
    have hscore := h.write_live (b := .attnStateScore il) hil (by simp)
    have hclen : liveBytes sh (s.sessionCpuRawLiveRows sh) s.nComp s.nIndexComp (.attnCompKv il) =
      s.nComp il * sh.rowBytes := if_neg h0
    rw [hclen] at hcomp
    simp only [liveBytes] at hkv hscore
    rw [if_neg h0]
    show (if sh.ratio il = 0 then _ else _ : Except LoadError (List UInt8)) = _
    rw [if_neg h0, hcomp, hkv, hscore]
    by_cases h4 : sh.ratio il = 4
    · have hicomp := h.write_live (b := .indexCompKv il) hil (by simp)
      have hikv := h.write_live (b := .indexStateKv il) hil (by simp)
      have hiscore := h.write_live (b := .indexStateScore il) hil (by simp)
      simp only [liveBytes, if_pos h4] at hicomp hikv hiscore
      rw [if_pos h4]
      show (if sh.ratio il = 4 then _ else _ : Except LoadError (List UInt8)) = _
      rw [if_pos h4, hicomp, hikv, hiscore]
      rfl
    · rw [if_neg h4]
      show (if sh.ratio il = 4 then _ else _ : Except LoadError (List UInt8)) = _
      rw [if_neg h4]
      rfl

/-- **Saving.** The payload is the encoding of the content. -/
theorem Valid.sessionSavePayload_eq (h : s.Valid sh) :
    s.sessionSavePayload sh = .ok ((s.content sh).encode sh (s.payloadHeader sh)) := by
  obtain ⟨layers, hlayers, hbody⟩ := Content.mapM_layers (c := s.content sh) (f := s.saveLayer sh)
    fun il hil => h.saveLayer_eq hil
  unfold sessionSavePayload
  rw [h.valid, hlayers, Content.encode, ← hbody]
  rfl

/-- **The announced size.** -/
theorem Valid.sessionPayloadBytes_eq (h : s.Valid sh) :
    s.sessionPayloadBytes sh = ((s.content sh).encode sh (s.payloadHeader sh)).length := by
  have hbody : s.sessionCpuPayloadLiveTensorBytes sh = ((bodyBuffers sh).map
      (liveBytes sh (s.sessionCpuRawLiveRows sh) s.nComp s.nIndexComp)).sum :=
    (sum_liveBytes ..).symm
  rw [Content.length_encode sh h.sized]
  unfold sessionPayloadBytes
  rw [if_pos h.valid, hbody]
  show 13 * 4 + _ + _ + _ + _ + _ = _
  unfold Shape.logitsBytes content
  dsimp only
  omega

/-! ### Restoring -/

/-- The one capacity is that of the ratio-4 layers. -/
theorem WellFormed.sessionCpuCompCap (h : s.WellFormed sh) :
    s.sessionCpuCompCap sh = s.ctxSize / 4 + 2 := by
  unfold CpuSession.sessionCpuCompCap
  cases hfind : (List.range sh.nLayer).find? fun il => sh.ratio il == 4 with
  | some il =>
    have hr : sh.ratio il = 4 := by simpa using List.find?_some hfind
    have hil := List.mem_range.mp (List.mem_of_find?_eq_some hfind)
    dsimp only
    rw [h.compCap il hil, kvCompCap, hr]
    rfl
  | none =>
    obtain ⟨il, hil, hr⟩ := sh.ratio_four
    have hnone := List.find?_eq_none.mp hfind il (List.mem_range.mpr hil)
    exact absurd (by simpa using hr) hnone

/-- No layer has more rows than the ratio-4 layers. -/
theorem kvCompCap_le (ctxSize : Nat) {il : Nat} (hil : il < sh.nLayer) :
    kvCompCap sh ctxSize il ≤ ctxSize / 4 + 2 := by
  unfold kvCompCap
  obtain h | h | h := sh.ratio_mem il hil
  · rw [if_pos h]
    omega
  · rw [if_neg (by omega), h]
  · rw [if_neg (by omega), h]
    omega

/-- What a session needs to take a payload. -/
structure Admits (sh : Shape) (s : CpuSession) (c : Content) (h : PayloadHeader) : Prop where
  magic : h.magic = DS4_SESSION_PAYLOAD_MAGIC
  version : h.version = DS4_SESSION_PAYLOAD_VERSION
  header : headerError sh s.ctxSize s.prefillCap (sh.defaultRawCap s.ctxSize)
    (sh.defaultRawCap s.ctxSize) h = none
  compCap : h.compCap ≤ s.sessionCpuCompCap sh
  nComp : ∀ il < sh.nLayer, c.nComp il ≤ h.compCap ∧ c.nComp il ≤ kvCompCap sh s.ctxSize il
  nIndexComp : ∀ il < sh.nLayer, c.nIndexComp il ≤ c.nComp il

variable {c : Content} {h : PayloadHeader} {fp : Source}

/-- **Accepted.** -/
theorem accepts_encoded (hwf : s.WellFormed sh) (he : c.Encoded sh h fp) (ha : s.Admits sh c h) :
    Accepts sh s fp := by
  have hlog := he.logits_next.le_avail
  rw [he.sized.logits] at hlog
  have hnext := he.next.le_avail
  have hav : (logitsEnd sh fp).avail = fp.avail - (putWords h.words ++
      putWords (c.tokens.map u32) ++ c.logits).length := by
    rw [he.logitsEnd_eq, Source.avail_skip]
  have hcap := ha.compCap
  have hbody := he.body_next.le_avail
  rw [← he.bodyBytes_eq] at hbody
  refine ⟨⟨?_, ?_, ?_, ?_, ?_⟩, ⟨hlog, ?_, ?_, ?_⟩, ?_, hbody, ?_⟩
  · rw [he.header]
    exact ha.magic
  · rw [he.header]
    exact ha.version
  · rw [he.header]
    exact ha.header
  · rw [he.header]
    exact hcap
  · rw [he.header, he.tokens]
    rw [Content.length_encode sh he.sized] at hnext
    omega
  · rw [hav]
    simp only [Content.encode, List.length_append, putWords_length, List.length_map,
      List.length_range] at hnext ⊢
    omega
  · intro p hp
    rw [he.nComp_words] at hp
    obtain ⟨hil, hv⟩ := mem_zip_range hp
    have hc := ha.nComp _ hil
    rw [he.header, hv]
    exact ⟨hc.1, hc.1.trans hcap⟩
  · intro p hp
    rw [he.nIndexComp_words] at hp
    obtain ⟨hil, hv⟩ := mem_zip_range hp
    have hle := ha.nIndexComp _ hil
    have hc := ha.nComp _ hil
    rw [he.header, hv]
    exact ⟨hle.trans hc.1, hle.trans (hc.1.trans hcap)⟩
  -- the rows of every layer fit its own buffers
  · refine NoOverflow.of_le fun b hb => ?_
    have hlayer := (mem_bodyBuffers sh).mp hb
    have hlive := ((headerError_eq_none_iff).mp ha.header).rawLive_le
    have hc := (ha.nComp _ hlayer).2
    rw [he.header, kvRawCap_eq hwf.ctx_pos]
    refine liveBytes_mono hlive ?_ ?_
    · rw [he.streamNComp_eq hlayer]
      exact hc
    · rw [he.streamNIndexComp_eq hlayer]
      exact (ha.nIndexComp _ hlayer).trans hc
  · rw [he.body_declared, he.bodyBytes_eq]

/-- The sections of an accepted payload lie in the empty caches. -/
theorem sections_fit (hwf : s.WellFormed sh) (he : c.Encoded sh h fp) (ha : s.Admits sh c h) :
    ∀ t ∈ sections (liveBytes sh h.rawLive (streamNComp sh fp) (streamNIndexComp sh fp))
      (bodyBuffers sh), t.Fits (begin sh (s.withLogits sh fp)).buf := by
  have hacc := accepts_encoded hwf he ha
  intro t ht
  obtain ⟨b, hb, rfl⟩ := List.mem_map.mp ht
  have hsize := (hacc.fits).le hacc.body b hb
  rw [he.header] at hsize
  unfold Span.Fits
  rw [length_begin_buf, Nat.zero_add]
  exact hsize

/-- The buffers after an accepted payload. -/
theorem withBody_buf (he : c.Encoded sh h fp) :
    (s.withBody sh fp).buf = writeAll (begin sh (s.withLogits sh fp)).buf
      (assign (sections (liveBytes sh h.rawLive (streamNComp sh fp) (streamNIndexComp sh fp))
        (bodyBuffers sh)) ((bodyBuffers sh).flatMap c.live)) := by
  have hlen : ((bodyBuffers sh).flatMap c.live).length =
      ((sections (liveBytes sh h.rawLive (streamNComp sh fp) (streamNIndexComp sh fp))
        (bodyBuffers sh)).map Span.len).sum := by
    rw [sum_len_sections, ← he.bodyBytes_eq, bodyBytes, he.header]
  obtain ⟨rest, hrest⟩ := he.body_next.pre
  rw [withBody, stepAll_buf, ← hrest, he.header]
  exact congrArg _ (assign_append _ hlen.ge)

/-- The sections that an accepted payload writes hold its bytes. -/
theorem read_withBody (hwf : s.WellFormed sh) (he : c.Encoded sh h fp) (ha : s.Admits sh c h) :
    (sections (liveBytes sh h.rawLive (streamNComp sh fp) (streamNIndexComp sh fp))
        (bodyBuffers sh)).flatMap (·.read (s.withBody sh fp).buf) =
      (bodyBuffers sh).flatMap c.live := by
  have hlen : ((bodyBuffers sh).flatMap c.live).length =
      ((sections (liveBytes sh h.rawLive (streamNComp sh fp) (streamNIndexComp sh fp))
        (bodyBuffers sh)).map Span.len).sum := by
    rw [sum_len_sections, ← he.bodyBytes_eq, bodyBytes, he.header]
  rw [withBody_buf he]
  refine flatMap_read_writeAll_assign (sections_fit hwf he ha) ?_ hlen
  exact List.pairwise_map.mpr ((bodyBuffers_nodup sh).imp fun {b d} hbd => Or.inl hbd)

/-- **Restored.** The session says what the payload says. -/
theorem content_loaded (hwf : s.WellFormed sh) (he : c.Encoded sh h fp) (ha : s.Admits sh c h) :
    Content.Same sh ((s.loaded sh fp).content sh) c := by
  have hfits := (headerError_eq_none_iff).mp ha.header
  have hhost : (s.withBody sh fp).toHost = (begin sh (s.withLogits sh fp)).toHost :=
    stepAll_toHost ..
  have htok : (s.loaded sh fp).checkpoint = c.tokens := he.streamTokens_eq
  have hctx : (s.loaded sh fp).ctxSize = s.ctxSize := by
    show (s.withBody sh fp).toHost.ctxSize = _
    rw [hhost]
    rfl
  have hlogits : (s.loaded sh fp).logits = c.logits := by
    show (s.withBody sh fp).toHost.logits = _
    rw [hhost]
    exact he.logits_peek
  have hrows : (s.loaded sh fp).sessionCpuRawLiveRows sh = h.rawLive := by
    have hlen : (s.loaded sh fp).checkpoint.length = h.tokens := by rw [htok, he.tokens]
    unfold sessionCpuRawLiveRows
    rw [if_pos (show (s.loaded sh fp).checkpointValid = true from rfl), hctx, hlen, hfits.rawLive]
    dsimp only
    split <;> omega
  -- the counters of layers without compression are zero on both sides
  have hcounts : ∀ il < sh.nLayer, (s.loaded sh fp).nComp il = c.nComp il ∧
      (s.loaded sh fp).nIndexComp il = c.nIndexComp il := by
    intro il hil
    have hboth : ((s.loaded sh fp).nComp il, (s.loaded sh fp).nIndexComp il) =
        if Buffer.rawKv il ∈ bodyBuffers sh ∧ sh.ratio il ≠ 0 then
          (streamNComp sh fp il, streamNIndexComp sh fp il)
        else (0, 0) := stepAll_counts ..
    have hc := (ha.nComp il hil).2
    have hi := ha.nIndexComp il hil
    by_cases h0 : sh.ratio il = 0
    · rw [if_neg fun hr => hr.2 h0] at hboth
      rw [kvCompCap, if_pos h0] at hc
      obtain ⟨hn, hni⟩ := Prod.mk.inj hboth
      exact ⟨by omega, by omega⟩
    · rw [if_pos ⟨(mem_bodyBuffers sh).mpr hil, h0⟩] at hboth
      obtain ⟨hn, hni⟩ := Prod.mk.inj hboth
      exact ⟨hn.trans (he.streamNComp_eq hil), hni.trans (he.streamNIndexComp_eq hil)⟩
  -- the live rows are the sections that have been written
  have hspan : ∀ b ∈ bodyBuffers sh, (s.loaded sh fp).liveSpan sh b =
      ⟨b, 0, liveBytes sh h.rawLive (streamNComp sh fp) (streamNIndexComp sh fp) b⟩ := by
    intro b hb
    have hlayer := (mem_bodyBuffers sh).mp hb
    have hlen : liveBytes sh h.rawLive (s.loaded sh fp).nComp (s.loaded sh fp).nIndexComp b =
        liveBytes sh h.rawLive (streamNComp sh fp) (streamNIndexComp sh fp) b :=
      liveBytes_congr ((hcounts _ hlayer).1.trans (he.streamNComp_eq hlayer).symm)
        ((hcounts _ hlayer).2.trans (he.streamNIndexComp_eq hlayer).symm)
    cases b with
    | rawKv il =>
      have hraw : (s.loaded sh fp).nRaw il = h.rawLive := by
        have hstep : (s.loaded sh fp).nRaw il =
            if Buffer.rawKv il ∈ bodyBuffers sh then (streamHeader fp).rawLive else 0 :=
          stepAll_nRaw ..
        rw [hstep, if_pos hb, he.header]
      unfold liveSpan
      dsimp only
      rw [hrows, hraw, Nat.sub_self, Nat.zero_mul]
      rfl
    | _ =>
      unfold liveSpan
      dsimp only
      rw [hrows, hlen]
  have hall := read_withBody hwf he ha
  rw [sections, List.flatMap_map] at hall
  have hsame := eq_of_flatMap_eq (fun b hb => ?_) hall
  · refine ⟨htok, hlogits, fun il hil => (hcounts il hil).1, fun il hil => (hcounts il hil).2, ?_⟩
    intro b hb
    unfold content
    dsimp only
    rw [hspan b hb]
    exact hsame b hb
  · have hlayer := (mem_bodyBuffers sh).mp hb
    rw [he.sized.live b hb, Span.read_length]
    · exact liveBytes_congr (he.streamNComp_eq hlayer) (he.streamNIndexComp_eq hlayer)
    · have hlenb : ((bodyBuffers sh).flatMap c.live).length =
          ((sections (liveBytes sh h.rawLive (streamNComp sh fp) (streamNIndexComp sh fp))
            (bodyBuffers sh)).map Span.len).sum := by
        rw [sum_len_sections, ← he.bodyBytes_eq, bodyBytes, he.header]
      have hfit := sections_fit hwf he ha _ (List.mem_map_of_mem hb)
      unfold Span.Fits at hfit ⊢
      rw [withBody_buf he, writeAll_length (fitsAll_assign (sections_fit hwf he ha) hlenb.ge)]
      exact hfit

end CpuSession

end DS4.Checkpoint
