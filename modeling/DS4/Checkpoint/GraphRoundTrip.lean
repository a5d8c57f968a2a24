import DS4.Checkpoint.GraphSpans

namespace DS4.Checkpoint

/-!
# Session payloads — writing and reading on the graph

* `GraphSession.sessionSavePayload_eq` — what is written is the encoding of the content.
* `GraphSession.sessionPayloadBytes_eq` — and has the announced size.
* `exec_forM_readPiece` — what the chunked reads of a body do, also when the stream ends early.
* `GraphSession.sessionLoadPayload_encode` — an encoded content that the session admits is loaded.
-/

open DS4.Lib

variable {sh : Shape} {cg : CtxGrow}

/-! ### Writing -/

theorem payloadWriteTensorSpan_eq {buf : Buffer → List UInt8} {s : Span Buffer}
    (h : s.Fits buf) :
    GraphSession.payloadWriteTensorSpan buf s.buf s.off s.len = .ok (s.read buf) := by
  unfold Span.Fits at h
  rw [GraphSession.payloadWriteTensorSpan, if_neg (by omega),
    Span.flatMap_read_pieces (by decide)]

namespace GraphSession

variable {g : GraphSession}

/-- The live bytes of a buffer other than the raw ring. -/
theorem content_live_of_ne {b : Buffer} (hb : ∀ il, b ≠ .rawKv il) :
    (g.content sh).live b =
      (⟨b, 0, liveBytes sh (g.sessionRawLiveRows sh) g.nComp g.nIndexComp b⟩ : Span Buffer).read
        g.buf := by
  cases b with
  | rawKv il => exact absurd rfl (hb il)
  | _ => exact List.append_nil _

/-- One such buffer as it is written. -/
theorem Valid.write_live (h : g.Valid sh cg) {b : Buffer} (hl : b.layer < sh.nLayer)
    (hb : ∀ il, b ≠ .rawKv il) :
    payloadWriteTensorSpan g.buf b 0
        (liveBytes sh (g.sessionRawLiveRows sh) g.nComp g.nIndexComp b) =
      .ok ((g.content sh).live b) := by
  rw [content_live_of_ne hb]
  refine @payloadWriteTensorSpan_eq g.buf ⟨b, 0, _⟩ (h.fits ?_)
  refine List.mem_flatMap.mpr ⟨b, (mem_bodyBuffers sh).mpr hl, ?_⟩
  cases b with
  | rawKv il => exact absurd rfl (hb il)
  | _ => exact List.mem_singleton_self _

/-- The raw ring as it is written. -/
theorem Valid.write_raw (h : g.Valid sh cg) {il : Nat} (hil : il < sh.nLayer) :
    ((List.range (g.sessionRawLiveRows sh)).mapM fun r =>
        payloadWriteTensorSpan g.buf (.rawKv il)
          ((g.rawFirst sh + r) % g.rawCap * sh.rowBytes) sh.rowBytes) =
      .ok ((List.range (g.sessionRawLiveRows sh)).map fun r =>
        (⟨.rawKv il, (g.rawFirst sh + r) % g.rawCap * sh.rowBytes, sh.rowBytes⟩ : Span Buffer).read
          g.buf) := by
  refine mapM_ok fun r hr => ?_
  refine @payloadWriteTensorSpan_eq g.buf ⟨.rawKv il, _, _⟩ (h.fits ?_)
  exact List.mem_flatMap.mpr ⟨.rawKv il, (mem_bodyBuffers sh).mpr hil, List.mem_map_of_mem hr⟩

/-- **One layer** as it is written. -/
theorem Valid.saveLayer_eq (h : g.Valid sh cg) {il : Nat} (hil : il < sh.nLayer) :
    g.saveLayer sh il = .ok ((layerBuffers il).flatMap (g.content sh).live) := by
  have hraw : (g.content sh).live (.rawKv il) =
      ((List.range (g.sessionRawLiveRows sh)).map fun r =>
        (⟨.rawKv il, (g.rawFirst sh + r) % g.rawCap * sh.rowBytes, sh.rowBytes⟩ : Span Buffer).read
          g.buf).flatten := by
    show ((List.range _).map _).flatMap _ = _
    rw [List.flatMap_map]
    rfl
  have hrows := h.write_raw hil
  unfold rawFirst at hrows hraw
  unfold saveLayer
  dsimp only
  rw [hrows, h.sized.layer_eq hil, hraw]
  by_cases h0 : sh.ratio il = 0
  · rw [if_pos h0]
    show (if sh.ratio il = 0 then _ else _ : Except String (List UInt8)) = _
    rw [if_pos h0]
    rfl
  · have hcomp := h.write_live (b := .attnCompKv il) hil (by simp)
    have hkv := h.write_live (b := .attnStateKv il) hil (by simp)
    have hscore := h.write_live (b := .attnStateScore il) hil (by simp)
    have hclen : liveBytes sh (g.sessionRawLiveRows sh) g.nComp g.nIndexComp (.attnCompKv il) =
      g.nComp il * sh.rowBytes := if_neg h0
    rw [hclen] at hcomp
    simp only [liveBytes] at hkv hscore
    rw [if_neg h0]
    show (if sh.ratio il = 0 then _ else _ : Except String (List UInt8)) = _
    rw [if_neg h0, hcomp, hkv, hscore]
    by_cases h4 : sh.ratio il = 4
    · have hicomp := h.write_live (b := .indexCompKv il) hil (by simp)
      have hikv := h.write_live (b := .indexStateKv il) hil (by simp)
      have hiscore := h.write_live (b := .indexStateScore il) hil (by simp)
      simp only [liveBytes, if_pos h4] at hicomp hikv hiscore
      rw [if_pos h4]
      show (if sh.ratio il = 4 then _ else _ : Except String (List UInt8)) = _
      rw [if_pos h4, hicomp, hikv, hiscore]
      rfl
    · rw [if_neg h4]
      show (if sh.ratio il = 4 then _ else _ : Except String (List UInt8)) = _
      rw [if_neg h4]
      rfl

/-- **Saving.** The payload is the encoding of the content. -/
theorem Valid.sessionSavePayload_eq (h : g.Valid sh cg) :
    g.sessionSavePayload sh = .ok ((g.content sh).encode sh (g.payloadHeader sh)) := by
  obtain ⟨layers, hlayers, hbody⟩ := Content.mapM_layers (c := g.content sh) (f := g.saveLayer sh)
    fun il hil => h.saveLayer_eq hil
  unfold sessionSavePayload
  rw [h.valid, hlayers, Content.encode, ← hbody]
  rfl

/-- **The announced size.** -/
theorem Valid.sessionPayloadBytes_eq (h : g.Valid sh cg) :
    g.sessionPayloadBytes sh = ((g.content sh).encode sh (g.payloadHeader sh)).length := by
  have hbody : g.sessionPayloadLiveTensorBytes sh = ((bodyBuffers sh).map
      (liveBytes sh (g.sessionRawLiveRows sh) g.nComp g.nIndexComp)).sum := (sum_liveBytes ..).symm
  rw [Content.length_encode sh h.sized]
  unfold sessionPayloadBytes
  rw [if_pos h.valid, hbody]
  show 13 * 4 + _ + _ + _ + _ + _ = _
  unfold Shape.logitsBytes content
  dsimp only
  omega

end GraphSession

/-! ### Reading the body -/

open GraphSession

/-- One chunk. -/
theorem exec_readPiece_ok {fp : Source} {g : GraphSession} {p : Span Buffer}
    (h : p.len ≤ fp.avail) :
    (readPiece p).exec (fp, g) =
      (.ok (), fp.skip p.len, { g with buf := p.write g.buf (fp.peek p.len) }) := by
  rw [readPiece, Reader.exec_bind_ok (exec_payloadReadBytes_ok h)]
  rfl

/-- A chunk that is not there leaves the tensors alone. -/
theorem exec_readPiece_error {fp : Source} {g : GraphSession} {p : Span Buffer}
    (h : fp.avail < p.len) :
    ∃ e fp', (readPiece p).exec (fp, g) = (.error (.failed e), fp', g) := by
  obtain ⟨e, fp', he⟩ := @exec_payloadReadBytes_error _ fp g _ h
  exact ⟨e, fp', Reader.exec_bind_error he⟩

/-- The tensors after the chunks that are there. -/
def readBuf (g : GraphSession) (ps : List (Span Buffer)) (fp : Source) : GraphSession :=
  { g with buf := writeAll g.buf (assign (within ps fp.avail) (fp.data.drop fp.pos)) }

theorem readBuf_cons {fp : Source} {g : GraphSession} {p : Span Buffer} {ps : List (Span Buffer)}
    (h : p.len ≤ fp.avail) :
    readBuf g (p :: ps) fp =
      readBuf { g with buf := p.write g.buf (fp.peek p.len) } ps (fp.skip p.len) := by
  unfold readBuf
  rw [within, if_pos h, assign, Source.avail_skip, List.drop_drop]
  rfl

/-- **The chunks of a body**, all of them there. -/
theorem exec_forM_readPiece_ok {fp : Source} {g : GraphSession} {ps : List (Span Buffer)}
    (h : (ps.map Span.len).sum ≤ fp.avail) :
    Reader.exec (forM ps readPiece) (fp, g) =
      (.ok ⟨⟩, fp.skip (ps.map Span.len).sum, readBuf g ps fp) := by
  induction ps generalizing fp g with
  | nil => rfl
  | cons p ps ih =>
    rw [List.map_cons, List.sum_cons] at h ⊢
    have hp : p.len ≤ fp.avail := by omega
    rw [Reader.exec_forM_cons_ok (exec_readPiece_ok hp),
      ih (by rw [Source.avail_skip]; omega), Source.skip_skip, readBuf_cons hp]

/-- The stream ends inside a body: the chunks before the end have been written. -/
theorem exec_forM_readPiece_error {fp : Source} {g : GraphSession} {ps : List (Span Buffer)}
    (h : fp.avail < (ps.map Span.len).sum) :
    ∃ e fp', Reader.exec (forM ps readPiece) (fp, g) =
      (.error (.failed e), fp', readBuf g ps fp) := by
  induction ps generalizing fp g with
  | nil => exact absurd h (Nat.not_lt_zero _)
  | cons p ps ih =>
    rw [List.map_cons, List.sum_cons] at h
    by_cases hp : p.len ≤ fp.avail
    · obtain ⟨e, fp', he⟩ := @ih (fp.skip p.len) { g with buf := p.write g.buf (fp.peek p.len) }
        (by rw [Source.avail_skip]; omega)
      rw [Reader.exec_forM_cons_ok (exec_readPiece_ok hp), readBuf_cons hp]
      exact ⟨e, fp', he⟩
    · obtain ⟨e, fp', he⟩ := @exec_readPiece_error fp g p (by omega)
      have hnone : readBuf g (p :: ps) fp = g := by
        rw [readBuf, within, if_neg hp]
        rfl
      rw [hnone]
      exact ⟨e, fp', Reader.exec_forM_cons_error he⟩

/-- Chunks of spans that fit lie in their buffers. -/
theorem piece_fits {cap : Nat} {buf : Buffer → List UInt8} {s p : Span Buffer} (hs : s.Fits buf)
    (hp : p ∈ Span.pieces cap s.buf s.off s.len) : p.Fits buf := by
  obtain ⟨hb, -, hr⟩ := Span.pieces_sub hp
  unfold Span.Fits at hs ⊢
  rw [hb]
  omega

/-- Reading chunks keeps the size of every tensor. -/
theorem readBuf_length {fp : Source} {g : GraphSession} {ps : List (Span Buffer)}
    (hfit : ∀ p ∈ ps, p.Fits g.buf) (b : Buffer) :
    ((readBuf g ps fp).buf b).length = (g.buf b).length := by
  refine writeAll_length (fitsAll_assign (fun p hp => hfit p ((within_initial _ _).subset hp)) ?_) b
  have hle := sum_len_within ps fp.avail
  rw [List.length_drop]
  unfold Source.avail at hle ⊢
  omega

/-- The chunks of some spans. -/
def chunks (ss : List (Span Buffer)) : List (Span Buffer) :=
  ss.flatMap fun s => Span.pieces DS4_SESSION_IO_CHUNK s.buf s.off s.len

theorem sum_len_chunks (ss : List (Span Buffer)) :
    ((chunks ss).map Span.len).sum = (ss.map Span.len).sum := by
  rw [chunks, List.map_flatMap, List.flatMap, List.sum_flatten, List.map_map]
  congr 1
  exact List.map_congr_left fun s _ => Span.sum_len_pieces (by decide) ..

theorem chunks_fit {buf : Buffer → List UInt8} {ss : List (Span Buffer)}
    (h : ∀ s ∈ ss, s.Fits buf) : ∀ p ∈ chunks ss, p.Fits buf := by
  intro p hp
  obtain ⟨s, hs, hp⟩ := List.mem_flatMap.mp hp
  exact piece_fits (h s hs) hp

theorem flatMap_read_chunks (ss : List (Span Buffer)) (m : Buffer → List UInt8) :
    (chunks ss).flatMap (·.read m) = ss.flatMap (·.read m) := by
  rw [chunks, List.flatMap_assoc]
  exact List.flatMap_congr fun s _ => Span.flatMap_read_pieces (by decide) ..

/-- Reading a span. -/
def readSpan (s : Span Buffer) : Load GraphSession Unit := payloadReadTensorSpan s.buf s.off s.len

/-- A loop over an append. -/
theorem exec_forM_append {σ ι : Type} {f : ι → Load σ Unit} (l k : List ι) (st : Source × σ) :
    Reader.exec (forM (l ++ k) f) st = Reader.exec (forM l f >>= fun _ => forM k f) st := by
  rw [List.forM_append]

/-- **Loops over reads.** Steps that each read the chunks `P i` read all of them one after the
    other; `Q` says that a step fits the tensors, which depends on their sizes only. -/
theorem exec_forM_chunks {ι : Type} {f : ι → Load GraphSession Unit} {P : ι → List (Span Buffer)}
    {Q : ι → (Buffer → List UInt8) → Prop} {rawCap : Nat}
    (hsize : ∀ i {m m' : Buffer → List UInt8}, (∀ b, (m' b).length = (m b).length) →
      Q i m → Q i m')
    (hfit : ∀ i m, Q i m → ∀ p ∈ P i, p.Fits m)
    (hstep : ∀ i fp (g : GraphSession), g.rawCap = rawCap → Q i g.buf →
      (f i).exec (fp, g) = Reader.exec (forM (P i) readPiece) (fp, g))
    {l : List ι} {fp : Source} {g : GraphSession} (hcap : g.rawCap = rawCap)
    (h : ∀ i ∈ l, Q i g.buf) :
    Reader.exec (forM l f) (fp, g) = Reader.exec (forM (l.flatMap P) readPiece) (fp, g) := by
  induction l generalizing fp g with
  | nil => rfl
  | cons i l ih =>
    have hi := h i List.mem_cons_self
    have hone := hstep i fp g hcap hi
    rw [List.flatMap_cons, exec_forM_append, List.forM_cons]
    by_cases hav : ((P i).map Span.len).sum ≤ fp.avail
    · have hok := exec_forM_readPiece_ok (g := g) hav
      rw [hok] at hone
      rw [Reader.exec_bind_ok hone, Reader.exec_bind_ok hok]
      refine ih hcap fun j hj => ?_
      exact hsize j (readBuf_length (hfit i _ hi)) (h j (List.mem_cons_of_mem _ hj))
    · obtain ⟨e, fp', he⟩ := exec_forM_readPiece_error (g := g) (Nat.lt_of_not_le hav)
      rw [he] at hone
      rw [Reader.exec_bind_error hone, Reader.exec_bind_error he]

theorem fits_of_length {s : Span Buffer} {m m' : Buffer → List UInt8}
    (h : ∀ b, (m' b).length = (m b).length) (hs : s.Fits m) : s.Fits m' := by
  unfold Span.Fits
  rw [h]
  exact hs

/-- **Spans that fit** are read chunk by chunk. -/
theorem exec_forM_readSpan {ss : List (Span Buffer)} {fp : Source} {g : GraphSession}
    (h : ∀ s ∈ ss, s.Fits g.buf) :
    Reader.exec (forM ss readSpan) (fp, g) = Reader.exec (forM (chunks ss) readPiece) (fp, g) := by
  refine @exec_forM_chunks _ readSpan _ (fun s m => s.Fits m) g.rawCap
    (fun s m m' hm hs => fits_of_length hm hs) (fun s m hs p hp => piece_fits hs hp)
    (fun s fp g' _ hs => ?_) ss fp g rfl h
  unfold Span.Fits at hs
  rw [readSpan, payloadReadTensorSpan, Reader.exec_bind_ok (Reader.exec_getState _),
    if_neg (by dsimp only; omega)]

/-- The spans of one layer that the ratio of the layer calls for. -/
def layerSpans (sh : Shape) (rawCap first rawLive : Nat) (nComp nIndexComp : Nat → Nat) (il : Nat) :
    List (Span Buffer) :=
  let span := fun b => (⟨b, 0, liveBytes sh rawLive nComp nIndexComp b⟩ : Span Buffer)
  rawSpans sh rawCap first rawLive il ++
    if sh.ratio il = 0 then []
    else
      [span (.attnCompKv il), span (.attnStateKv il), span (.attnStateScore il)] ++
        if sh.ratio il = 4 then
          [span (.indexCompKv il), span (.indexStateKv il), span (.indexStateScore il)]
        else []

/-- The others are empty. -/
theorem chunks_layerSpans (rawCap first rawLive : Nat) (nComp nIndexComp : Nat → Nat) (il : Nat) :
    chunks (layerSpans sh rawCap first rawLive nComp nIndexComp il) =
      chunks ((layerBuffers il).flatMap (bufSpans sh rawCap first rawLive nComp nIndexComp)) := by
  have hnil : ∀ b : Buffer, Span.pieces DS4_SESSION_IO_CHUNK b 0 0 = [] := fun b => by
    rw [Span.pieces, if_pos (Or.inl rfl)]
  have hraw : (layerBuffers il).flatMap (bufSpans sh rawCap first rawLive nComp nIndexComp) =
      rawSpans sh rawCap first rawLive il ++
        [⟨.attnCompKv il, 0, liveBytes sh rawLive nComp nIndexComp (.attnCompKv il)⟩,
          ⟨.attnStateKv il, 0, liveBytes sh rawLive nComp nIndexComp (.attnStateKv il)⟩,
          ⟨.attnStateScore il, 0, liveBytes sh rawLive nComp nIndexComp (.attnStateScore il)⟩,
          ⟨.indexCompKv il, 0, liveBytes sh rawLive nComp nIndexComp (.indexCompKv il)⟩,
          ⟨.indexStateKv il, 0, liveBytes sh rawLive nComp nIndexComp (.indexStateKv il)⟩,
          ⟨.indexStateScore il, 0, liveBytes sh rawLive nComp nIndexComp (.indexStateScore il)⟩] :=
    rfl
  rw [hraw, layerSpans, chunks, chunks, List.flatMap_append, List.flatMap_append]
  congr 1
  by_cases h0 : sh.ratio il = 0
  · have hst : sh.layerAttnStateBytes (sh.ratio il) = 0 := by rw [h0]; rfl
    have h4 : ¬ sh.ratio il = 4 := by omega
    rw [if_pos h0]
    simp only [liveBytes, if_pos h0, if_neg h4, hst, List.flatMap_cons, List.flatMap_nil, hnil,
      List.append_nil]
  · rw [if_neg h0]
    by_cases h4 : sh.ratio il = 4
    · rw [if_pos h4]
      rfl
    · rw [if_neg h4]
      simp only [liveBytes, if_neg h4, List.flatMap_cons, List.flatMap_nil, hnil,
        List.append_nil]

/-- The spans of a layer are among its buffers' spans. -/
theorem layerSpans_sub {rawCap first rawLive : Nat} {nComp nIndexComp : Nat → Nat} {il : Nat}
    {s : Span Buffer} (hs : s ∈ layerSpans sh rawCap first rawLive nComp nIndexComp il) :
    s ∈ (layerBuffers il).flatMap (bufSpans sh rawCap first rawLive nComp nIndexComp) := by
  have hmem : ∀ b ∈ layerBuffers il, (∀ jl, b ≠ .rawKv jl) →
      (⟨b, 0, liveBytes sh rawLive nComp nIndexComp b⟩ : Span Buffer) ∈
        (layerBuffers il).flatMap (bufSpans sh rawCap first rawLive nComp nIndexComp) := by
    intro b hb hne
    refine List.mem_flatMap.mpr ⟨b, hb, ?_⟩
    cases b with
    | rawKv jl => exact absurd rfl (hne jl)
    | _ => exact List.mem_singleton_self _
  unfold layerSpans at hs
  dsimp only at hs
  rw [List.mem_append] at hs
  obtain hs | hs := hs
  · exact List.mem_flatMap.mpr ⟨.rawKv il, by simp [layerBuffers], hs⟩
  · split at hs
    · exact absurd hs List.not_mem_nil
    · rw [List.mem_append] at hs
      obtain hs | hs := hs
      · simp only [List.mem_cons, List.not_mem_nil, or_false] at hs
        obtain rfl | rfl | rfl := hs <;> exact hmem _ (by simp [layerBuffers]) (by simp)
      · split at hs
        · simp only [List.mem_cons, List.not_mem_nil, or_false] at hs
          obtain rfl | rfl | rfl := hs <;> exact hmem _ (by simp [layerBuffers]) (by simp)
        · exact absurd hs List.not_mem_nil

/-- **One layer** is its spans. -/
theorem exec_loadLayer (h : PayloadHeader) (nComp nIndexComp : List Nat) (il : Nat) (fp : Source)
    (g : GraphSession) :
    (loadLayer sh h nComp nIndexComp il).exec (fp, g) =
      Reader.exec (forM (layerSpans sh g.rawCap (h.tokens - h.rawLive) h.rawLive
        (fun il => nComp.getD il 0) (fun il => nIndexComp.getD il 0) il) readSpan) (fp, g) := by
  rw [loadLayer, Reader.exec_bind_ok (Reader.exec_getState _)]
  unfold layerSpans rawSpans
  dsimp only
  rw [List.forM_append, List.forM_map]
  congr 1
  show (forM (List.range h.rawLive) _ >>= fun _ => if sh.ratio il = 0 then _ else _) = _
  congr 1
  funext _
  by_cases h0 : sh.ratio il = 0
  · rw [if_pos h0, if_pos h0, List.forM_nil]
  · rw [if_neg h0, if_neg h0]
    by_cases h4 : sh.ratio il = 4
    · rw [if_pos h4, if_pos h4]
      simp only [List.cons_append, List.nil_append, List.forM_cons, List.forM_nil, readSpan,
        liveBytes, if_neg h0, if_pos h4, bind_pure_unit]
    · rw [if_neg h4, if_neg h4]
      simp only [List.append_nil, List.forM_cons, List.forM_nil, readSpan, liveBytes, if_neg h0]

end DS4.Checkpoint
