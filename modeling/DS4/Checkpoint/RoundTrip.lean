import DS4.Checkpoint.GraphRestore
import DS4.Checkpoint.CpuRestore

namespace DS4.Checkpoint

/-!
# Session payloads — saving and loading, on either back end

Both back ends write the encoding of what the session says, and both restore it.  The two sessions
need not have the same back end, ring or capacities.

* `compMinRatio_eq` — the ratio of the shared capacity.
* `Session` — a session on either back end; `Session.Admits` — when one session can take the
  checkpoint of another.
* `Session.load_save` — the round trip.
-/

open DS4.Lib

variable {sh : Shape} {cg : CtxGrow}

/-! ### The shared capacity -/

/-- A minimum over layers is one of their ratios, and none of them is smaller. -/
theorem foldl_ratio_spec (ils : List Nat) (m : Nat) :
    let r := ils.foldl (fun m il => if sh.ratio il ≠ 0 ∧ sh.ratio il < m then sh.ratio il else m) m
    r ≤ m ∧ (∀ il ∈ ils, sh.ratio il ≠ 0 → r ≤ sh.ratio il) ∧
      (r = m ∨ ∃ il ∈ ils, sh.ratio il ≠ 0 ∧ r = sh.ratio il) := by
  induction ils generalizing m with
  | nil => exact ⟨Nat.le_refl m, fun il hil => absurd hil List.not_mem_nil, Or.inl rfl⟩
  | cons il ils ih =>
    rw [List.foldl_cons]
    dsimp only at ih ⊢
    by_cases hlt : sh.ratio il ≠ 0 ∧ sh.ratio il < m
    · rw [if_pos hlt]
      obtain ⟨hle, hall, hor⟩ := ih (sh.ratio il)
      refine ⟨by omega, List.forall_mem_cons.mpr ⟨fun _ => hle, hall⟩, Or.inr ?_⟩
      obtain h | ⟨jl, hjl, hr, he⟩ := hor
      · exact ⟨il, List.mem_cons_self, hlt.1, h⟩
      · exact ⟨jl, List.mem_cons_of_mem _ hjl, hr, he⟩
    · rw [if_neg hlt]
      obtain ⟨hle, hall, hor⟩ := ih m
      refine ⟨hle, List.forall_mem_cons.mpr ⟨fun hr => by omega, hall⟩, hor.imp_right ?_⟩
      rintro ⟨jl, hjl, hr, he⟩
      exact ⟨jl, List.mem_cons_of_mem _ hjl, hr, he⟩

theorem compMinRatio_eq (sh : Shape) : sh.compMinRatio = 4 := by
  obtain ⟨-, hall, hor⟩ := @foldl_ratio_spec sh (List.range sh.nLayer) (2 ^ 32 - 1)
  obtain ⟨il, hil, h4⟩ := sh.ratio_four
  have hle : sh.compMinRatio ≤ sh.ratio il :=
    hall il (List.mem_range.mpr hil) (by omega)
  obtain h | ⟨jl, hjl, hr, he⟩ := hor
  · have hbig : sh.compMinRatio = 2 ^ 32 - 1 := h
    omega
  · have hmem := sh.ratio_mem jl (List.mem_range.mp hjl)
    have heq : sh.compMinRatio = sh.ratio jl := he
    omega

/-! ### Creating a session -/

namespace GraphSession

theorem firstCap_le (ratio ceiling : Nat) : firstCap cg ratio ceiling ≤ ceiling := by
  unfold firstCap
  split <;> omega

theorem layerFirstCap_le (ctxSize il : Nat) :
    layerFirstCap sh cg ctxSize il ≤ layerCeiling sh ctxSize il := by
  unfold layerFirstCap
  split
  · exact Nat.zero_le _
  · exact firstCap_le ..

theorem defaultRawCap_le {ctxSize : Nat} (h : 0 < ctxSize) : sh.defaultRawCap ctxSize ≤ ctxSize := by
  unfold Shape.defaultRawCap
  dsimp only
  generalize hr : (if ctxSize < sh.nSwa then ctxSize else sh.nSwa) = rawCap
  have hle : rawCap ≤ ctxSize := by
    rw [← hr]
    split <;> omega
  split <;> omega

theorem ringCap_spec {ctxSize : Nat} (h : 0 < ctxSize) (rawCap : Nat) :
    sh.defaultRawCap ctxSize ≤ ringCap sh rawCap ctxSize ∧ ringCap sh rawCap ctxSize ≤ ctxSize := by
  have hle := @defaultRawCap_le sh ctxSize h
  unfold ringCap
  dsimp only
  generalize (if rawCap = 0 then 1 else rawCap) = r
  generalize hr' : (if r < sh.defaultRawCap ctxSize then sh.defaultRawCap ctxSize else r) = r'
  have hge : sh.defaultRawCap ctxSize ≤ r' := by
    rw [← hr']
    split <;> omega
  generalize hr'' : (if ctxSize < r' then ctxSize else r') = r''
  have hboth : sh.defaultRawCap ctxSize ≤ r'' ∧ r'' ≤ ctxSize := by
    rw [← hr'']
    split <;> omega
  split <;> omega

/-- **Creating a session** sets up its caches. -/
theorem wellFormed_create {ctxSize prefillCap : Nat} (rawCap : Nat) (hpos : 0 < ctxSize)
    (hlt : ctxSize < 2 ^ 31) (hprefill : prefillCap < 256 ^ 4) :
    (create sh cg ctxSize prefillCap rawCap).WellFormed sh cg where
  ctx_pos := hpos
  ctx_lt := hlt
  prefillCap_lt := hprefill
  rawWindow := rfl
  rawWindow_le := (ringCap_spec hpos rawCap).1
  rawCap_lt := by
    have hle := (@ringCap_spec sh ctxSize hpos rawCap).2
    show ringCap sh rawCap ctxSize < 256 ^ 4
    omega
  compCapMax := rfl
  compCap_le := firstCap_le ..
  layerCompCapMax := fun _ _ => rfl
  layerCompCap_le := fun il _ => layerFirstCap_le ctxSize il
  full := fun hoff => by
    have hfirst : ∀ r c, firstCap cg r c = c := fun r c => by
      rw [firstCap, hoff]
      rfl
    refine ⟨hfirst .., fun il _ => ?_⟩
    show layerFirstCap sh cg ctxSize il = layerCeiling sh ctxSize il
    unfold layerFirstCap
    split
    · rename_i h0
      rw [layerCeiling, if_pos h0]
    · exact hfirst ..
  logits := List.length_replicate
  bufs := fun b _ => by
    cases b with
    | attnStateScore il => exact length_negInf _
    | indexStateScore il =>
      show (negInf (if sh.ratio il = 4 then _ else 0)).length = if sh.ratio il = 4 then _ else 0
      split
      · exact length_negInf _
      · rfl
    | _ => exact List.length_replicate
  nComp_le := fun _ _ => Nat.zero_le _
  nIndexComp_le := fun _ _ => Nat.zero_le _

end GraphSession

/-! ### Either back end -/

/-- `ds4_session` -/
inductive Session where
  | graph (g : GraphSession)
  | cpu (s : CpuSession)

namespace Session

/-- The fields that both have. -/
def host : Session → Host
  | graph g => g.toHost
  | cpu s   => s.toHost

/-- The positions that attention reads raw rows of. -/
def rawWindow (sh : Shape) : Session → Nat
  | graph g => g.rawWindow
  | cpu s   => sh.defaultRawCap s.ctxSize

/-- The raw rows there is room for. -/
def rawCap (sh : Shape) : Session → Nat
  | graph g => g.rawCap
  | cpu s   => sh.defaultRawCap s.ctxSize

/-- The raw rows of a payload. -/
def rawLiveRows (sh : Shape) : Session → Nat
  | graph g => g.sessionRawLiveRows sh
  | cpu s   => s.sessionCpuRawLiveRows sh

/-- The caches are as they were allocated. -/
def WellFormed (sh : Shape) (cg : CtxGrow) : Session → Prop
  | graph g => g.WellFormed sh cg
  | cpu s   => s.WellFormed sh

/-- There is a valid checkpoint. -/
def Valid (sh : Shape) (cg : CtxGrow) : Session → Prop
  | graph g => g.Valid sh cg
  | cpu s   => s.Valid sh

/-- What a payload of the session says. -/
def content (sh : Shape) : Session → Content
  | graph g => g.content sh
  | cpu s   => s.content sh

/-- `ds4_session_payload_bytes` -/
def payloadBytes (sh : Shape) : Session → Nat
  | graph g => g.sessionPayloadBytes sh
  | cpu s   => s.sessionPayloadBytes sh

/-- `ds4_session_save_payload` -/
def savePayload (sh : Shape) : Session → Except LoadError (List UInt8)
  | graph g => (g.sessionSavePayload sh).mapError .failed
  | cpu s   => s.sessionSavePayload sh

/-- `ds4_session_load_payload` -/
def loadPayload (sh : Shape) (cg : CtxGrow) (fp : Source) :
    Session → Except LoadError Unit × Source × Session
  | graph g =>
    let (r, fp', g') := (GraphSession.sessionLoadPayload sh cg).exec (fp, g)
    (r, fp', graph g')
  | cpu s =>
    let (r, fp', s') := (CpuSession.sessionLoadPayload sh).exec (fp, s)
    (r, fp', cpu s')

/-- The context and the ring of `b` are large enough for the checkpoint of `a`, and chunks and
    window are the same. -/
structure Admits (sh : Shape) (b a : Session) : Prop where
  ctxSize : a.host.ctxSize ≤ b.host.ctxSize
  prefillCap : a.host.prefillCap = b.host.prefillCap
  rawWindow : a.rawWindow sh = b.rawWindow sh
  rawCap : a.rawLiveRows sh ≤ b.rawCap sh

variable {a b : Session}

/-- The compressed rows of a layer that a context has room for. -/
def maxRows (sh : Shape) (ctxSize il : Nat) : Nat :=
  if sh.ratio il = 0 then 0 else ctxSize / sh.ratio il + 2

theorem maxRows_mono {c c' : Nat} (h : c ≤ c') (il : Nat) : maxRows sh c il ≤ maxRows sh c' il := by
  unfold maxRows
  split
  · exact Nat.le_refl 0
  · exact Nat.add_le_add_right (Nat.div_le_div_right h) 2

/-- The header of a payload of the session. -/
def payloadHeader (sh : Shape) : Session → PayloadHeader
  | graph g => g.payloadHeader sh
  | cpu s   => s.payloadHeader sh

/-- What the payload of a session is, and which sessions its header admits. -/
structure Saved (sh : Shape) (a : Session) (hd : PayloadHeader) : Prop where
  save : a.savePayload sh = .ok ((a.content sh).encode sh hd)
  bytes : a.payloadBytes sh = ((a.content sh).encode sh hd).length
  sized : (a.content sh).Sized sh hd.rawLive
  words : ∀ w ∈ hd.words, w < 256 ^ 4
  tokens : hd.tokens = (a.content sh).tokens.length
  magic : hd.magic = DS4_SESSION_PAYLOAD_MAGIC
  version : hd.version = DS4_SESSION_PAYLOAD_VERSION
  compCap : hd.compCap ≤ a.host.ctxSize / 4 + 2
  nComp : ∀ il < sh.nLayer, (a.content sh).nComp il ≤ hd.compCap ∧
    (a.content sh).nComp il ≤ maxRows sh a.host.ctxSize il
  nIndexComp : ∀ il < sh.nLayer, (a.content sh).nIndexComp il ≤ (a.content sh).nComp il
  header : ∀ b : Session, b.Admits sh a →
    headerError sh b.host.ctxSize b.host.prefillCap (b.rawWindow sh) (b.rawCap sh) hd = none

/-- **Saving.** A valid session is written as the encoding of its content. -/
theorem Valid.saved (h : a.Valid sh cg) : a.Saved sh (a.payloadHeader sh) := by
  cases a with
  | graph g =>
    have hv : g.Valid sh cg := h
    have hlive := hv.toWellFormed.sessionRawLiveRows
    have hmax := hv.compCapMax
    rw [compMinRatio_eq] at hmax
    have hcap := hv.compCap_le
    have hlen := hv.len_lt
    have hctx := hv.ctx_lt
    have hring := hv.rawWindow_le
    have hrawCap := hv.rawCap_lt
    refine ⟨?_, hv.sessionPayloadBytes_eq, hv.sized, ?_, rfl, rfl, rfl, ?_, ?_,
      hv.nIndexComp_le_nComp, fun b hab => ?_⟩
    · show (g.sessionSavePayload sh).mapError _ = _
      rw [hv.sessionSavePayload_eq]
      rfl
    · have h1 := hv.prefillCap_lt
      have h2 := sh.nLayer_lt
      have h3 := sh.headDim_lt
      have h4 := sh.indexerHeadDim_lt
      have h5 := sh.nVocab_lt
      have h6 := hv.toWellFormed.compCap_lt
      intro w hw
      simp only [payloadHeader, PayloadHeader.words, GraphSession.payloadHeader, DS4_SESSION_PAYLOAD_MAGIC,
        DS4_SESSION_PAYLOAD_VERSION, List.mem_cons, List.not_mem_nil, or_false] at hw
      omega
    · show g.compCap ≤ g.ctxSize / 4 + 2
      omega
    · intro il hil
      have hle := (hv.nComp_le il hil).trans (hv.layerCompCap_le il hil)
      rw [hv.layerCompCapMax il hil] at hle
      exact ⟨hv.nComp_le_shared il hil, hle⟩
    · have hpos := hv.toWellFormed.rawWindow_pos
      have hwin : g.rawWindow = b.rawWindow sh := hab.rawWindow
      refine (headerError_eq_none_iff).mpr
        { ctxSize_le := hab.ctxSize, tokens_lt := ?_, nLayer := rfl, headDim := rfl,
          indexerHeadDim := rfl, nVocab := rfl, prefillCap := hab.prefillCap, rawWindow := hwin,
          rawCap_pos := ?_, rawLive := ?_, rawLive_le_saved := hv.toWellFormed.rawLive_le,
          rawLive_le := hab.rawCap }
      · exact Nat.lt_of_lt_of_le hlen hab.ctxSize
      · show 0 < g.rawCap
        omega
      · rw [← hwin]
        exact hlive
  | cpu s =>
    have hv : s.Valid sh := h
    have hcap := hv.toWellFormed.sessionCpuCompCap
    have hlen := hv.len_lt
    have hctx := hv.ctx_lt
    have hraw := @GraphSession.defaultRawCap_le sh s.ctxSize hv.ctx_pos
    have hlive : s.sessionCpuRawLiveRows sh =
        min s.checkpoint.length (sh.defaultRawCap s.ctxSize) := by
      unfold CpuSession.sessionCpuRawLiveRows
      rw [if_pos hv.valid]
      dsimp only
      split <;> omega
    have hpos : 0 < sh.defaultRawCap s.ctxSize := by
      unfold Shape.defaultRawCap
      dsimp only
      generalize (if s.ctxSize < sh.nSwa then s.ctxSize else sh.nSwa) = rawCap
      split <;> omega
    refine ⟨hv.sessionSavePayload_eq, hv.sessionPayloadBytes_eq, hv.sized, ?_,
      rfl, rfl, rfl, hcap.le, ?_, hv.nIndexComp_le_nComp, fun b hab => ?_⟩
    · have h1 := hv.prefillCap_lt
      have h2 := sh.nLayer_lt
      have h3 := sh.headDim_lt
      have h4 := sh.indexerHeadDim_lt
      have h5 := sh.nVocab_lt
      intro w hw
      simp only [payloadHeader, PayloadHeader.words, CpuSession.payloadHeader, DS4_SESSION_PAYLOAD_MAGIC,
        DS4_SESSION_PAYLOAD_VERSION, List.mem_cons, List.not_mem_nil, or_false] at hw
      omega
    · intro il hil
      refine ⟨?_, hv.nComp_le il hil⟩
      show s.nComp il ≤ s.sessionCpuCompCap sh
      rw [hcap]
      exact (hv.nComp_le il hil).trans (CpuSession.kvCompCap_le _ hil)
    · have hwin : sh.defaultRawCap s.ctxSize = b.rawWindow sh := hab.rawWindow
      refine (headerError_eq_none_iff).mpr
        { ctxSize_le := hab.ctxSize, tokens_lt := ?_, nLayer := rfl, headDim := rfl,
          indexerHeadDim := rfl, nVocab := rfl, prefillCap := hab.prefillCap, rawWindow := hwin,
          rawCap_pos := hpos, rawLive := ?_, rawLive_le_saved := ?_, rawLive_le := hab.rawCap }
      · exact Nat.lt_of_lt_of_le hlen hab.ctxSize
      · rw [← hwin]
        exact hlive
      · show s.sessionCpuRawLiveRows sh ≤ sh.defaultRawCap s.ctxSize
        omega

/-- **Restoring.** A session that admits a saved payload takes it. -/
theorem Saved.load {hd : PayloadHeader} (hs : a.Saved sh hd) (hb : b.WellFormed sh cg)
    (hab : b.Admits sh a) {fp : Source} (hnext : (a.content sh).encode sh hd <+: fp.data.drop fp.pos)
    (hdecl : fp.remaining = ((a.content sh).encode sh hd).length) :
    ∃ b', b.loadPayload sh cg fp =
        (.ok (), fp.skip ((a.content sh).encode sh hd).length, b') ∧
      b'.host.checkpointValid = true ∧ Content.Same sh (b'.content sh) (a.content sh) := by
  have he : (a.content sh).Encoded sh hd fp :=
    ⟨hs.sized, hs.words, hs.tokens, ⟨hnext, hdecl.ge⟩, hdecl⟩
  have hrows : ∀ il < sh.nLayer, (a.content sh).nComp il ≤ hd.compCap ∧
      (a.content sh).nComp il ≤ maxRows sh b.host.ctxSize il := fun il hil =>
    ⟨(hs.nComp il hil).1, (hs.nComp il hil).2.trans (maxRows_mono hab.ctxSize il)⟩
  have hcap : hd.compCap ≤ b.host.ctxSize / 4 + 2 :=
    hs.compCap.trans (Nat.add_le_add_right (Nat.div_le_div_right hab.ctxSize) 2)
  -- the load stops right behind the payload
  have hend : (countsEnd sh fp).skip (bodyBytes sh fp) =
      fp.skip ((a.content sh).encode sh hd).length := by
    rw [he.countsEnd_eq, Source.skip_skip, he.bodyBytes_eq, ← List.length_append]
    rfl
  cases b with
  | graph g =>
    have hwf : g.WellFormed sh cg := hb
    have ha : g.Admits sh (a.content sh) hd :=
      { magic := hs.magic
        version := hs.version
        header := hs.header _ hab
        compCap := by
          rw [hwf.compCapMax, compMinRatio_eq]
          exact hcap
        nComp := fun il hil => by
          rw [hwf.layerCompCapMax il hil]
          exact hrows il hil
        nIndexComp := hs.nIndexComp }
    have hload := GraphSession.exec_sessionLoadPayload_ok hwf
      (GraphSession.accepts_encoded hwf he ha)
    rw [hend] at hload
    refine ⟨graph (g.loaded sh cg fp), ?_, rfl, GraphSession.content_loaded hwf he ha⟩
    unfold loadPayload
    dsimp only
    rw [hload]
  | cpu s =>
    have hwf : s.WellFormed sh := hb
    have ha : s.Admits sh (a.content sh) hd :=
      { magic := hs.magic
        version := hs.version
        header := hs.header _ hab
        compCap := by
          rw [hwf.sessionCpuCompCap]
          exact hcap
        nComp := hrows
        nIndexComp := hs.nIndexComp }
    have hload := CpuSession.exec_sessionLoadPayload_ok hwf.logits
      (CpuSession.accepts_encoded hwf he ha)
    rw [hend] at hload
    refine ⟨cpu (s.loaded sh fp), ?_, rfl, CpuSession.content_loaded hwf he ha⟩
    unfold loadPayload
    dsimp only
    rw [hload]

/-- **Round trip.** The payload of a valid session has the announced size, and a session that
    admits it is restored from it, on whichever back ends the two are. -/
theorem load_save {cg' : CtxGrow} (ha : a.Valid sh cg) (hb : b.WellFormed sh cg')
    (hab : b.Admits sh a) :
    ∃ bytes, a.savePayload sh = .ok bytes ∧ bytes.length = a.payloadBytes sh ∧
      ∀ fp : Source, bytes <+: fp.data.drop fp.pos → fp.remaining = bytes.length →
        ∃ b', b.loadPayload sh cg' fp = (.ok (), fp.skip bytes.length, b') ∧
          b'.host.checkpointValid = true ∧ Content.Same sh (b'.content sh) (a.content sh) :=
  ⟨_, ha.saved.save, ha.saved.bytes.symm, fun _ hnext hdecl => ha.saved.load hb hab hnext hdecl⟩

/-- A session on the CPU after one token, of rows that are zero. -/
def oneToken : CpuSession where
  ctxSize := 4096
  prefillCap := 4096
  checkpoint := [7]
  checkpointValid := true
  logits := List.replicate flash.logitsBytes 0
  mtpDraftValid := false
  compCap := kvCompCap flash 4096
  nRaw := fun _ => 1
  nComp := fun _ => 0
  nIndexComp := fun _ => 0
  buf := kvInitBuf flash 4096

theorem valid_oneToken : oneToken.Valid flash where
  ctx_pos := by decide
  ctx_lt := by decide
  prefillCap_lt := by decide
  compCap := fun _ _ => rfl
  logits := List.length_replicate
  bufs := fun b _ => CpuSession.length_kvInitBuf 4096 b
  nRaw_le := fun _ _ => show 1 ≤ flash.defaultRawCap 4096 by decide
  nComp_le := fun _ _ => Nat.zero_le _
  nIndexComp_le := fun _ _ => Nat.zero_le _
  valid := rfl
  len_lt := by decide
  tokens := fun t ht => by
    obtain rfl := List.mem_singleton.mp ht
    exact ⟨by decide, by decide⟩
  rawLive_le := fun _ _ => show oneToken.sessionCpuRawLiveRows flash ≤ 1 by decide
  nIndexComp_le_nComp := fun _ _ => Nat.le_refl 0

/-- Saved on the CPU, restored on a graph with a larger context, a larger ring, and growth. -/
theorem load_save_oneToken :
    ∃ bytes, (cpu oneToken).savePayload flash = .ok bytes ∧
      bytes.length = (cpu oneToken).payloadBytes flash ∧
      ∀ fp : Source, bytes <+: fp.data.drop fp.pos → fp.remaining = bytes.length →
        ∃ b', (graph (GraphSession.create flash ⟨true, 2048⟩ 8192 4096 640)).loadPayload flash
            ⟨true, 2048⟩ fp = (.ok (), fp.skip bytes.length, b') ∧
          b'.host.checkpointValid = true ∧
          Content.Same flash (b'.content flash) ((cpu oneToken).content flash) :=
  @load_save flash ⟨true, 2048⟩ (cpu oneToken)
    (graph (GraphSession.create flash ⟨true, 2048⟩ 8192 4096 640)) ⟨true, 2048⟩ valid_oneToken
    (GraphSession.wellFormed_create 640 (by decide) (by decide) (by decide))
    ⟨by decide, rfl, rfl, by decide⟩

end Session

end DS4.Checkpoint
