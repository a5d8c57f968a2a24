import DS4.Checkpoint.Cpu

namespace DS4.Checkpoint

/-!
# Session payloads — the stages of a load on the CPU

The stages are those of the graph, with two differences: nothing grows, and the checkpoint is
invalid from the moment the caches are touched.

* `exec_loadHead_ok`, `exec_loadLogits_ok`, `exec_loadCounts_ok` and their `_error` lemmas.
* `loadLayer_eq` — a layer is a step for each of its buffers; `NoOverflow`, `exec_forM_step`.
* `Accepts`, `exec_sessionLoadPayload_ok`, `exec_sessionLoadPayload_error` — the whole load.
-/

open DS4.Lib

namespace CpuSession

variable {sh : Shape} {s : CpuSession} {fp : Source}

/-! ### Header, tokens, logits -/

/-- Header and tokens are there, and the header fits the runtime. -/
structure HeadFits (sh : Shape) (s : CpuSession) (fp : Source) : Prop where
  magic : (streamHeader fp).magic = DS4_SESSION_PAYLOAD_MAGIC
  version : (streamHeader fp).version = DS4_SESSION_PAYLOAD_VERSION
  header : headerError sh s.ctxSize s.prefillCap (sh.defaultRawCap s.ctxSize)
    (sh.defaultRawCap s.ctxSize) (streamHeader fp) = none
  compCap : (streamHeader fp).compCap ≤ s.sessionCpuCompCap sh
  tokens : 52 + 4 * (streamHeader fp).tokens ≤ fp.avail

theorem exec_loadHead_ok (h : HeadFits sh s fp) :
    (loadHead sh).exec (fp, s) =
      (.ok (streamHeader fp, streamTokens fp), tokensEnd fp, s) := by
  have htok := h.tokens
  have hcap := h.compCap
  rw [loadHead, Reader.exec_bind_ok (exec_readHeader_ok (by omega) ⟨h.magic, h.version⟩),
    Reader.exec_bind_ok (Reader.exec_getState _)]
  dsimp only
  rw [h.header, Reader.exec_bind_ok (exec_check_none _), if_neg (by omega),
    Reader.exec_bind_ok (exec_check_none _),
    Reader.exec_bind_ok (exec_readWords_ok (by rw [Source.avail_skip]; omega)), Source.skip_skip]
  rfl

/-- A load that ends before the logits keeps the session. -/
theorem exec_loadHead_error (h : ¬ HeadFits sh s fp) :
    ∃ e fp', (loadHead sh).exec (fp, s) = (.error (.failed e), fp', s) := by
  by_cases hread : 52 ≤ fp.avail ∧ (streamHeader fp).magic = DS4_SESSION_PAYLOAD_MAGIC ∧
      (streamHeader fp).version = DS4_SESSION_PAYLOAD_VERSION
  · obtain ⟨h52, hm, hv⟩ := hread
    rw [loadHead, Reader.exec_bind_ok (exec_readHeader_ok h52 ⟨hm, hv⟩),
      Reader.exec_bind_ok (Reader.exec_getState _)]
    dsimp only
    cases he : headerError sh s.ctxSize s.prefillCap (sh.defaultRawCap s.ctxSize)
      (sh.defaultRawCap s.ctxSize) (streamHeader fp) with
    | some msg => exact ⟨_, _, Reader.exec_bind_error (exec_check_some _ _)⟩
    | none =>
      rw [Reader.exec_bind_ok (exec_check_none _)]
      by_cases hcap : s.sessionCpuCompCap sh < (streamHeader fp).compCap
      · rw [if_pos hcap]
        exact ⟨_, _, Reader.exec_bind_error (exec_check_some _ _)⟩
      · rw [if_neg hcap, Reader.exec_bind_ok (exec_check_none _)]
        have hshort : (fp.skip 52).avail < 4 * (streamHeader fp).tokens := by
          rw [Source.avail_skip]
          by_contra hle
          exact h ⟨hm, hv, he, by omega, by omega⟩
        obtain ⟨e, fp', hw⟩ := @exec_readWords_error _ (fp.skip 52) s _ hshort
        exact ⟨e, fp', Reader.exec_bind_error hw⟩
  · obtain ⟨e, fp', he⟩ := @exec_readHeader_error _ fp s hread
    exact ⟨e, fp', Reader.exec_bind_error he⟩

theorem exec_loadLogits_ok (h : sh.logitsBytes ≤ fp.avail)
    (hlen : s.logits.length = sh.logitsBytes) :
    (loadLogits sh).exec (fp, s) =
      (.ok (), fp.skip sh.logitsBytes, { s with logits := fp.peek sh.logitsBytes }) := by
  have hall := tornLogits_of_avail h hlen
  unfold Source.avail at h
  rw [tornLogits, if_neg (by omega)] at hall
  have hstep := @exec_payloadReadInto_ok _ fp s sh.logitsBytes
    (fun bytes s => .ok { s with logits := splice s.logits 0 bytes }) _ h rfl
  rw [hall] at hstep
  exact hstep

theorem exec_loadLogits_error (h : fp.avail < sh.logitsBytes) :
    ∃ e fp', (loadLogits sh).exec (fp, s) =
      (.error (.failed e), fp', { s with logits := tornLogits sh s.logits fp }) := by
  unfold tornLogits
  by_cases hrem : fp.remaining < sh.logitsBytes
  · rw [if_pos hrem]
    exact ⟨_, _, exec_payloadReadInto_short hrem⟩
  · rw [if_neg hrem]
    obtain ⟨fp', he⟩ := @exec_payloadReadInto_torn _ fp s sh.logitsBytes
      (fun bytes s => .ok { s with logits := splice s.logits 0 bytes }) _ (by omega) h rfl
    exact ⟨_, fp', he⟩

/-! ### Counters -/

/-- The counters are there and fit the one capacity. -/
structure CountsFit (sh : Shape) (h : PayloadHeader) (s : CpuSession) (fp : Source) : Prop where
  size : 4 * sh.nLayer + 4 * sh.nLayer ≤ fp.avail
  nComp : ∀ p ∈ (List.range sh.nLayer).zip (streamWords fp sh.nLayer),
    p.2 ≤ h.compCap ∧ p.2 ≤ s.sessionCpuCompCap sh
  nIndexComp : ∀ p ∈ (List.range sh.nLayer).zip (streamWords (fp.skip (4 * sh.nLayer)) sh.nLayer),
    p.2 ≤ h.compCap ∧ p.2 ≤ s.sessionCpuCompCap sh

theorem allFit_countFits {h : PayloadHeader} {ils vs : List Nat} :
    AllFit (fun _ _ s => s) (countFits sh h) ils vs s ↔
      ∀ p ∈ ils.zip vs, p.2 ≤ h.compCap ∧ p.2 ≤ s.sessionCpuCompCap sh := by
  rw [allFit_const]
  unfold countFits
  simp only [decide_eq_true_iff]

theorem exec_loadCounts_ok {h : PayloadHeader} (hc : CountsFit sh h s fp) :
    (loadCounts sh h).exec (fp, s) =
      (.ok (streamWords fp sh.nLayer, streamWords (fp.skip (4 * sh.nLayer)) sh.nLayer),
        fp.skip (4 * sh.nLayer + 4 * sh.nLayer), s) := by
  have hlen : (List.range sh.nLayer).length = sh.nLayer := List.length_range
  have hsize := hc.size
  have hfirst := @exec_readCounts_ok _ fp s "KV checkpoint has invalid compressed row count"
    (fun _ _ s => s) (countFits sh h) (List.range sh.nLayer) (by rw [hlen]; omega)
    (by rw [hlen, allFit_countFits]; exact hc.nComp)
  have hsecond := @exec_readCounts_ok _ (fp.skip (4 * sh.nLayer)) s
    "KV checkpoint has invalid indexer row count" (fun _ _ s => s) (countFits sh h)
    (List.range sh.nLayer) (by rw [hlen, Source.avail_skip]; omega)
    (by rw [hlen, allFit_countFits]; exact hc.nIndexComp)
  rw [hlen, growAll_const] at hfirst hsecond
  rw [Source.skip_skip] at hsecond
  rw [loadCounts, Reader.exec_bind_ok hfirst, Reader.exec_bind_ok hsecond]
  rfl

/-- Counters that do not fit are refused, and the session is kept. -/
theorem exec_loadCounts_error {h : PayloadHeader} (hc : ¬ CountsFit sh h s fp) :
    ∃ e fp', (loadCounts sh h).exec (fp, s) = (.error (.failed e), fp', s) := by
  have hlen : (List.range sh.nLayer).length = sh.nLayer := List.length_range
  unfold loadCounts
  by_cases hfirst : 4 * (List.range sh.nLayer).length ≤ fp.avail ∧
      AllFit (fun _ _ s => s) (countFits sh h) (List.range sh.nLayer)
        (streamWords fp (List.range sh.nLayer).length) s
  · have hok := @exec_readCounts_ok _ fp s "KV checkpoint has invalid compressed row count" _ _
      _ hfirst.1 hfirst.2
    obtain ⟨hav, hfit⟩ := hfirst
    rw [hlen] at hok hav hfit
    rw [growAll_const] at hok
    have hsecond : ¬ (4 * (List.range sh.nLayer).length ≤ (fp.skip (4 * sh.nLayer)).avail ∧
        AllFit (fun _ _ s => s) (countFits sh h) (List.range sh.nLayer)
          (streamWords (fp.skip (4 * sh.nLayer)) (List.range sh.nLayer).length) s) := by
      rw [hlen, allFit_countFits, Source.avail_skip]
      rintro ⟨hav', hfit'⟩
      exact hc ⟨by omega, (allFit_countFits).mp hfit, hfit'⟩
    obtain ⟨e, fp', s', he, rfl⟩ := @exec_readCounts_error _ _ _
      "KV checkpoint has invalid indexer row count" _ _ Eq (fun _ => rfl) (fun _ _ hr => hr) _
      hsecond
    rw [Reader.exec_bind_ok hok]
    exact ⟨e, fp', Reader.exec_bind_error he⟩
  · obtain ⟨e, fp', s', he, rfl⟩ := @exec_readCounts_error _ _ _
      "KV checkpoint has invalid compressed row count" _ _ Eq (fun _ => rfl) (fun _ _ hr => hr) _
      hfirst
    exact ⟨e, fp', Reader.exec_bind_error he⟩

/-! ### Caches -/

/-- The bytes of a section. -/
def sectionLen (sh : Shape) (h : PayloadHeader) (nComp nIndexComp : List Nat) : Buffer → Nat :=
  liveBytes sh h.rawLive (nComp.getD · 0) (nIndexComp.getD · 0)

/-- What the counters of a layer become once its raw rows are read. -/
def after (sh : Shape) (h : PayloadHeader) (nComp nIndexComp : List Nat) (b : Buffer)
    (s : CpuSession) : CpuSession :=
  match b with
  | .rawKv il =>
    let s := { s with nRaw := Function.update s.nRaw il h.rawLive }
    if sh.ratio il = 0 then s else setCounts nComp nIndexComp il s
  | _ => s

/-- One buffer of a load. -/
def step (sh : Shape) (h : PayloadHeader) (nComp nIndexComp : List Nat) (b : Buffer) :
    Load CpuSession Unit := do
  readInto b (sectionLen sh h nComp nIndexComp b)
  Reader.modifyState (after sh h nComp nIndexComp b)

/-- A section of no bytes is not read. -/
theorem readInto_zero (b : Buffer) : readInto b 0 = pure () := by
  refine Reader.ext fun st => ?_
  obtain ⟨fp, s⟩ := st
  have hskip : fp.skip 0 = fp := by rw [Source.skip, Nat.add_zero, Nat.sub_zero]
  have hwrite : (⟨b, 0, 0⟩ : Span Buffer).write s.buf [] = s.buf := by
    rw [Span.write, splice_nil, Function.update_eq_self]
  have hok := @exec_payloadReadInto_ok _ fp s 0 (store b) s (Nat.zero_le _) (by
    rw [Source.peek, List.take_zero, store, List.length_nil, if_neg (Nat.not_lt_zero _), hwrite])
  rw [hskip] at hok
  exact hok

/-- **A layer** is a step for each of its buffers, in the order of the payload. -/
theorem loadLayer_eq (h : PayloadHeader) (nComp nIndexComp : List Nat) (il : Nat) :
    loadLayer sh h nComp nIndexComp il = forM (layerBuffers il) (step sh h nComp nIndexComp) := by
  have hid : ∀ b, (∀ jl, b ≠ .rawKv jl) →
      step sh h nComp nIndexComp b =
        readInto b (sectionLen sh h nComp nIndexComp b) := by
    intro b hb
    have hafter : after sh h nComp nIndexComp b = id := by
      cases b with
      | rawKv jl => exact absurd rfl (hb jl)
      | _ => rfl
    rw [step, hafter, Reader.modifyState_id]
    exact bind_pure_unit
  have hrest : forM (layerBuffers il) (step sh h nComp nIndexComp) = (do
      step sh h nComp nIndexComp (.rawKv il)
      readInto (.attnCompKv il)
        (sectionLen sh h nComp nIndexComp (.attnCompKv il))
      readInto (.attnStateKv il)
        (sectionLen sh h nComp nIndexComp (.attnStateKv il))
      readInto (.attnStateScore il)
        (sectionLen sh h nComp nIndexComp (.attnStateScore il))
      readInto (.indexCompKv il)
        (sectionLen sh h nComp nIndexComp (.indexCompKv il))
      readInto (.indexStateKv il)
        (sectionLen sh h nComp nIndexComp (.indexStateKv il))
      readInto (.indexStateScore il)
        (sectionLen sh h nComp nIndexComp (.indexStateScore il))) := by
    simp only [layerBuffers, List.forM_cons, List.forM_nil]
    rw [hid (.attnCompKv il) (by simp), hid (.attnStateKv il) (by simp),
      hid (.attnStateScore il) (by simp), hid (.indexCompKv il) (by simp),
      hid (.indexStateKv il) (by simp), hid (.indexStateScore il) (by simp)]
    simp only [bind_pure_unit]
  rw [hrest]
  unfold step loadLayer
  by_cases h0 : sh.ratio il = 0
  · have hafter : after sh h nComp nIndexComp (.rawKv il) =
        fun s => { s with nRaw := Function.update s.nRaw il h.rawLive } :=
      funext fun s => if_pos h0
    have hst : sh.layerAttnStateBytes (sh.ratio il) = 0 := by rw [h0]; rfl
    have h4 : ¬ sh.ratio il = 4 := by omega
    simp only [sectionLen, liveBytes, if_pos h0, if_neg h4, hst, readInto_zero, bind_assoc, pure_bind, hafter]
  · have hafter : after sh h nComp nIndexComp (.rawKv il) =
        setCounts nComp nIndexComp il ∘
          fun s => { s with nRaw := Function.update s.nRaw il h.rawLive } :=
      funext fun s => if_neg h0
    rw [hafter, Reader.modifyState_comp]
    by_cases h4 : sh.ratio il = 4
    · simp only [sectionLen, liveBytes, if_neg h0, if_pos h4, bind_assoc]
    · simp only [sectionLen, liveBytes, if_neg h0, if_neg h4, readInto_zero, bind_assoc]
      rfl

/-- The sections of some buffers. -/
def sections (len : Buffer → Nat) (bs : List Buffer) : List (Span Buffer) :=
  bs.map fun b => ⟨b, 0, len b⟩

theorem sum_len_sections (len : Buffer → Nat) (bs : List Buffer) :
    ((sections len bs).map Span.len).sum = (bs.map len).sum := by
  rw [sections, List.map_map]
  rfl

/-- Whatever arrives of a section that is reached has room in its buffer. -/
def NoOverflow (len size : Buffer → Nat) : List Buffer → Source → Prop
  | [], _       => True
  | b :: bs, fp =>
    len b ≤ fp.remaining →
      (fp.peek (len b)).length ≤ size b ∧ (fp.Has (len b) → NoOverflow len size bs (fp.skip (len b)))

/-- The session after one step. -/
def stepped (sh : Shape) (h : PayloadHeader) (nComp nIndexComp : List Nat) (b : Buffer)
    (fp : Source) (s : CpuSession) : CpuSession :=
  let n := sectionLen sh h nComp nIndexComp b
  after sh h nComp nIndexComp b
    { s with buf := (⟨b, 0, n⟩ : Span Buffer).write s.buf (fp.peek n) }

/-- The session after the steps of some buffers. -/
def stepAll (sh : Shape) (h : PayloadHeader) (nComp nIndexComp : List Nat) :
    List Buffer → Source → CpuSession → CpuSession
  | [], _, s       => s
  | b :: bs, fp, s =>
    stepAll sh h nComp nIndexComp bs (fp.skip (sectionLen sh h nComp nIndexComp b))
      (stepped sh h nComp nIndexComp b fp s)

section step

variable {h : PayloadHeader} {nComp nIndexComp : List Nat}

@[simp] theorem after_buf (b : Buffer) (s : CpuSession) :
    (after sh h nComp nIndexComp b s).buf = s.buf := by
  cases b with
  | rawKv il =>
    unfold after
    dsimp only
    split <;> rfl
  | _ => rfl

@[simp] theorem after_toHost (b : Buffer) (s : CpuSession) :
    (after sh h nComp nIndexComp b s).toHost = s.toHost := by
  cases b with
  | rawKv il =>
    unfold after
    dsimp only
    split <;> rfl
  | _ => rfl

@[simp] theorem after_compCap (b : Buffer) (s : CpuSession) :
    (after sh h nComp nIndexComp b s).compCap = s.compCap := by
  cases b with
  | rawKv il =>
    unfold after
    dsimp only
    split <;> rfl
  | _ => rfl

theorem exec_step_ok {b : Buffer} (hav : sectionLen sh h nComp nIndexComp b ≤ fp.avail)
    (hsize : sectionLen sh h nComp nIndexComp b ≤ (s.buf b).length) :
    (step sh h nComp nIndexComp b).exec (fp, s) =
      (.ok (), fp.skip (sectionLen sh h nComp nIndexComp b),
        stepped sh h nComp nIndexComp b fp s) := by
  have hlen := Source.peek_length_of_avail hav
  have hstore : store b (fp.peek (sectionLen sh h nComp nIndexComp b)) s =
      .ok { s with
        buf := (⟨b, 0, sectionLen sh h nComp nIndexComp b⟩ : Span Buffer).write s.buf
          (fp.peek (sectionLen sh h nComp nIndexComp b)) } := by
    rw [store, hlen, if_neg (by omega)]
  rw [step, readInto, Reader.exec_bind_ok (exec_payloadReadInto_ok hav hstore)]
  rfl

/-- A section that is not there, or only in part. -/
theorem exec_step_error {b : Buffer} {n : Nat} (hn : sectionLen sh h nComp nIndexComp b = n)
    (hav : fp.avail < n) (hroom : n ≤ fp.remaining → (fp.peek n).length ≤ (s.buf b).length) :
    ∃ e fp' s', (step sh h nComp nIndexComp b).exec (fp, s) = (.error (.failed e), fp', s') ∧
      s'.toHost = s.toHost := by
  rw [step, hn, readInto]
  by_cases hrem : n ≤ fp.remaining
  · have hstore : store b (fp.peek n) s = .ok { s with
        buf := (⟨b, 0, (fp.peek n).length⟩ : Span Buffer).write s.buf (fp.peek n) } := by
      rw [store, if_neg (by have := hroom hrem; omega)]
    obtain ⟨fp', he⟩ := exec_payloadReadInto_torn hrem hav hstore
    exact ⟨_, fp', _, Reader.exec_bind_error he, rfl⟩
  · exact ⟨_, _, s, Reader.exec_bind_error (exec_payloadReadInto_short (by omega)), rfl⟩

theorem exec_step_overflow {b : Buffer} {n : Nat} (hn : sectionLen sh h nComp nIndexComp b = n)
    (hrem : n ≤ fp.remaining) (hover : (s.buf b).length < (fp.peek n).length) :
    (step sh h nComp nIndexComp b).exec (fp, s) = (.error (.overflow b), fp, s) := by
  have hstore : store b (fp.peek n) s = .error (.overflow b) := by
    rw [store, if_pos hover]
  rw [step, hn, readInto, Reader.exec_bind_error (exec_payloadReadInto_overflow hrem hstore)]

/-- A step keeps the sizes of the buffers. -/
theorem length_stepped_buf {b : Buffer} (hav : sectionLen sh h nComp nIndexComp b ≤ fp.avail)
    (hsize : sectionLen sh h nComp nIndexComp b ≤ (s.buf b).length) (c : Buffer) :
    ((stepped sh h nComp nIndexComp b fp s).buf c).length = (s.buf c).length := by
  have hlen := Source.peek_length_of_avail hav
  have hfit : (⟨b, 0, sectionLen sh h nComp nIndexComp b⟩ : Span Buffer).Fits s.buf := by
    unfold Span.Fits
    dsimp only
    omega
  rw [stepped, after_buf]
  exact Span.write_length hfit (Nat.le_of_eq hlen) c

@[simp] theorem stepped_toHost (b : Buffer) (fp : Source) (s : CpuSession) :
    (stepped sh h nComp nIndexComp b fp s).toHost = s.toHost := after_toHost ..

/-- **The caches**, all of them there. -/
theorem exec_forM_step_ok {bs : List Buffer}
    (hav : (bs.map (sectionLen sh h nComp nIndexComp)).sum ≤ fp.avail)
    (hsize : ∀ b ∈ bs, sectionLen sh h nComp nIndexComp b ≤
      (s.buf b).length) :
    Reader.exec (forM bs (step sh h nComp nIndexComp)) (fp, s) = (.ok ⟨⟩,
      fp.skip (bs.map (sectionLen sh h nComp nIndexComp)).sum,
      stepAll sh h nComp nIndexComp bs fp s) := by
  induction bs generalizing fp s with
  | nil => rfl
  | cons b bs ih =>
    rw [List.map_cons, List.sum_cons] at hav ⊢
    have hb := hsize b List.mem_cons_self
    rw [Reader.exec_forM_cons_ok (exec_step_ok (by omega) hb), ih (by rw [Source.avail_skip]; omega), Source.skip_skip]
    · rfl
    · intro c hc
      rw [length_stepped_buf (by omega) hb]
      exact hsize c (List.mem_cons_of_mem _ hc)

/-- The stream ends inside the caches: host fields are as they were. -/
theorem exec_forM_step_error {bs : List Buffer} {size : Buffer → Nat}
    (hsize : ∀ b, (s.buf b).length = size b)
    (hno : NoOverflow (sectionLen sh h nComp nIndexComp) size bs fp)
    (hav : fp.avail <
      (bs.map (sectionLen sh h nComp nIndexComp)).sum) :
    ∃ e fp' s', Reader.exec (forM bs (step sh h nComp nIndexComp)) (fp, s) =
      (.error (.failed e), fp', s') ∧ s'.toHost = s.toHost := by
  induction bs generalizing fp s with
  | nil => exact absurd hav (Nat.not_lt_zero _)
  | cons b bs ih =>
    rw [List.map_cons, List.sum_cons] at hav
    by_cases hb : sectionLen sh h nComp nIndexComp b ≤ fp.avail
    · have hlen := Source.peek_length_of_avail hb
      have hbs := hb
      unfold Source.avail at hbs
      obtain ⟨hroom, hnext⟩ := hno (by omega)
      have hfit : sectionLen sh h nComp nIndexComp b ≤
          (s.buf b).length := by
        rw [hsize]
        omega
      have hrest := @ih _ (fp.skip _) (fun c => (length_stepped_buf hb hfit c).trans (hsize c))
        (hnext (show _ ≤ fp.data.length - fp.pos by omega)) (by rw [Source.avail_skip]; omega)
      obtain ⟨e, fp', s', he, hs'⟩ := hrest
      rw [Reader.exec_forM_cons_ok (exec_step_ok hb hfit)]
      exact ⟨e, fp', s', he, by rw [hs', stepped_toHost]⟩
    · obtain ⟨e, fp', s', he, hs'⟩ := @exec_step_error sh s fp h nComp nIndexComp b _ rfl
        (by omega) fun hrem => by rw [hsize]; exact (hno hrem).1
      exact ⟨e, fp', s', Reader.exec_forM_cons_error he, hs'⟩

/-- A section that does not fit is written past the end of its buffer. -/
theorem exec_forM_step_overflow {bs : List Buffer} {size : Buffer → Nat}
    (hsize : ∀ b, (s.buf b).length = size b)
    (hover : ¬ NoOverflow (sectionLen sh h nComp nIndexComp) size bs
      fp) :
    ∃ b fp' s', Reader.exec (forM bs (step sh h nComp nIndexComp)) (fp, s) =
      (.error (.overflow b), fp', s') := by
  induction bs generalizing fp s with
  | nil => exact absurd trivial hover
  | cons b bs ih =>
    unfold NoOverflow at hover
    rw [Classical.not_imp] at hover
    obtain ⟨hrem, hover⟩ := hover
    by_cases hroom : (fp.peek (sectionLen sh h nComp nIndexComp b)).length
        ≤ size b
    · -- the section fits, so it is there and a later one does not fit
      have hlate := fun hnext => hover ⟨hroom, hnext⟩
      rw [imp_false, Classical.not_imp] at hlate
      obtain ⟨hhas, hlate⟩ := hlate
      have hav : sectionLen sh h nComp nIndexComp b ≤ fp.avail := by
        unfold Source.Has at hhas
        unfold Source.avail
        omega
      have hfit : sectionLen sh h nComp nIndexComp b ≤
          (s.buf b).length := by
        rw [hsize, ← Source.peek_length hhas]
        exact hroom
      obtain ⟨c, fp', s', he⟩ := @ih _ _ (fun c => (length_stepped_buf hav hfit c).trans (hsize c)) hlate
      rw [Reader.exec_forM_cons_ok (exec_step_ok hav hfit)]
      exact ⟨c, fp', s', he⟩
    · exact ⟨b, fp, s, Reader.exec_forM_cons_error
        (exec_step_overflow rfl hrem (by rw [hsize]; omega))⟩

/-! ### After the steps -/

theorem stepAll_toHost (bs : List Buffer) (fp : Source) (s : CpuSession) :
    (stepAll sh h nComp nIndexComp bs fp s).toHost = s.toHost := by
  induction bs generalizing fp s with
  | nil => rfl
  | cons b bs ih => exact (ih _ _).trans (stepped_toHost b fp s)

theorem stepAll_compCap (bs : List Buffer) (fp : Source) (s : CpuSession) :
    (stepAll sh h nComp nIndexComp bs fp s).compCap = s.compCap := by
  induction bs generalizing fp s with
  | nil => rfl
  | cons b bs ih => exact (ih _ _).trans (after_compCap _ _)

/-- The buffers hold the sections. -/
theorem stepAll_buf (bs : List Buffer) (fp : Source) (s : CpuSession) :
    (stepAll sh h nComp nIndexComp bs fp s).buf =
      writeAll s.buf (assign
        (sections (sectionLen sh h nComp nIndexComp) bs)
        (fp.data.drop fp.pos)) := by
  induction bs generalizing fp s with
  | nil => rfl
  | cons b bs ih =>
    rw [stepAll, ih, stepped, after_buf, Source.skip_data, Source.skip_pos, ← List.drop_drop]
    rfl

theorem after_nRaw (b : Buffer) (s : CpuSession) (il : Nat) :
    (after sh h nComp nIndexComp b s).nRaw il = if b = .rawKv il then h.rawLive else s.nRaw il := by
  cases b with
  | rawKv jl =>
    have hraw : (after sh h nComp nIndexComp (.rawKv jl) s).nRaw =
        Function.update s.nRaw jl h.rawLive := by
      unfold after
      dsimp only
      split <;> rfl
    rw [hraw, Function.update_apply]
    simp only [Buffer.rawKv.injEq, eq_comm]
  | _ => simp [after]

theorem stepAll_nRaw (bs : List Buffer) (fp : Source) (s : CpuSession) (il : Nat) :
    (stepAll sh h nComp nIndexComp bs fp s).nRaw il =
      if .rawKv il ∈ bs then h.rawLive else s.nRaw il := by
  induction bs generalizing fp s with
  | nil => rfl
  | cons b bs ih =>
    rw [stepAll, ih, stepped, after_nRaw]
    by_cases hbs : Buffer.rawKv il ∈ bs
    · rw [if_pos hbs, if_pos (List.mem_cons_of_mem _ hbs)]
    · rw [if_neg hbs]
      by_cases hb : b = .rawKv il
      · rw [if_pos hb, if_pos (by rw [hb]; exact List.mem_cons_self)]
      · rw [if_neg hb, if_neg fun hmem => (List.mem_cons.mp hmem).elim (fun h => hb h.symm) hbs]

/-- The counters of a layer after its raw rows are read. -/
theorem after_counts (b : Buffer) (s : CpuSession) (il : Nat) :
    ((after sh h nComp nIndexComp b s).nComp il, (after sh h nComp nIndexComp b s).nIndexComp il) =
      if b = .rawKv il ∧ sh.ratio il ≠ 0 then (nComp.getD il 0, nIndexComp.getD il 0)
      else (s.nComp il, s.nIndexComp il) := by
  cases b with
  | rawKv jl =>
    unfold after
    dsimp only
    by_cases h0 : sh.ratio jl = 0
    · rw [if_pos h0, if_neg]
      rintro ⟨hb, hr⟩
      obtain rfl := Buffer.rawKv.inj hb
      exact hr h0
    · rw [if_neg h0]
      unfold setCounts
      dsimp only
      by_cases hil : jl = il
      · subst hil
        rw [if_pos ⟨rfl, h0⟩, Function.update_self, Function.update_self]
      · rw [if_neg fun hb => hil (Buffer.rawKv.inj hb.1), Function.update_of_ne (Ne.symm hil),
          Function.update_of_ne (Ne.symm hil)]
  | _ => simp [after]

theorem stepAll_counts (bs : List Buffer) (fp : Source) (s : CpuSession) (il : Nat) :
    ((stepAll sh h nComp nIndexComp bs fp s).nComp il,
        (stepAll sh h nComp nIndexComp bs fp s).nIndexComp il) =
      if .rawKv il ∈ bs ∧ sh.ratio il ≠ 0 then (nComp.getD il 0, nIndexComp.getD il 0)
      else (s.nComp il, s.nIndexComp il) := by
  induction bs generalizing fp s with
  | nil => simp [stepAll]
  | cons b bs ih =>
    rw [stepAll, ih, stepped, after_counts]
    by_cases hbs : Buffer.rawKv il ∈ bs ∧ sh.ratio il ≠ 0
    · rw [if_pos hbs, if_pos ⟨List.mem_cons_of_mem _ hbs.1, hbs.2⟩]
    · rw [if_neg hbs]
      by_cases hb : b = .rawKv il ∧ sh.ratio il ≠ 0
      · rw [if_pos hb, if_pos ⟨by rw [hb.1]; exact List.mem_cons_self, hb.2⟩]
      · rw [if_neg hb, if_neg]
        rintro ⟨hmem, hr⟩
        exact (List.mem_cons.mp hmem).elim (fun h => hb ⟨h.symm, hr⟩) fun h => hbs ⟨h, hr⟩

end step

/-! ### Empty caches -/

theorem kvRawCap_eq {ctxSize : Nat} (h : 0 < ctxSize) :
    kvRawCap sh ctxSize = sh.defaultRawCap ctxSize := by
  unfold kvRawCap Shape.defaultRawCap
  dsimp only
  generalize hr : (if ctxSize < sh.nSwa then ctxSize else sh.nSwa) = rawCap
  have hle : rawCap ≤ ctxSize := by
    rw [← hr]
    split <;> omega
  by_cases h0 : rawCap = 0
  · have h1 : ¬ ctxSize < 1 := by omega
    rw [if_pos h0, if_neg h1, if_neg Nat.one_ne_zero]
  · have h1 : ¬ ctxSize < rawCap := by omega
    rw [if_neg h0, if_neg h1, if_neg h0]

/-- The sizes of the buffers. -/
theorem length_kvInitBuf (ctxSize : Nat) (b : Buffer) :
    (kvInitBuf sh ctxSize b).length =
      liveBytes sh (kvRawCap sh ctxSize) (kvCompCap sh ctxSize) (kvCompCap sh ctxSize) b := by
  have hattn : ∀ r, sh.layerAttnStateBytes 0 = 0 ∧
      (negInf (sh.layerAttnStateBytes r)).length = sh.layerAttnStateBytes r :=
    fun r => ⟨rfl, length_negInf _⟩
  have hindex : ∀ r, (negInf (sh.layerIndexStateBytes r)).length = sh.layerIndexStateBytes r :=
    fun r => length_negInf _
  cases b with
  | rawKv il => exact List.length_replicate
  | attnStateScore il =>
    unfold kvInitBuf liveBytes
    dsimp only
    split
    · rename_i h0
      rw [h0, (hattn 0).1]
      rfl
    · exact (hattn _).2
  | attnStateKv il =>
    unfold kvInitBuf liveBytes
    dsimp only
    split
    · rename_i h0
      rw [h0, (hattn 0).1]
      rfl
    · exact List.length_replicate
  | indexStateScore il =>
    unfold kvInitBuf liveBytes
    dsimp only
    split
    · exact hindex _
    · rfl
  | _ =>
    unfold kvInitBuf liveBytes
    dsimp only
    split <;> first | exact List.length_replicate | rfl

/-! ### The stages together -/

/-- The logits are there, and the counters behind them fit. -/
def CountsReached (sh : Shape) (s : CpuSession) (fp : Source) : Prop :=
  sh.logitsBytes ≤ (tokensEnd fp).avail ∧ CountsFit sh (streamHeader fp) s (logitsEnd sh fp)

/-- No section that is reached brings more bytes than its buffer holds. -/
def BodyFits (sh : Shape) (s : CpuSession) (fp : Source) : Prop :=
  NoOverflow
    (liveBytes sh (streamHeader fp).rawLive (streamNComp sh fp) (streamNIndexComp sh fp))
    (liveBytes sh (kvRawCap sh s.ctxSize) (kvCompCap sh s.ctxSize) (kvCompCap sh s.ctxSize))
    (bodyBuffers sh) (countsEnd sh fp)

/-- What a load accepts. -/
structure Accepts (sh : Shape) (s : CpuSession) (fp : Source) : Prop where
  head : HeadFits sh s fp
  counts : CountsReached sh s fp
  fits : BodyFits sh s fp
  body : bodyBytes sh fp ≤ (countsEnd sh fp).avail
  whole : (countsEnd sh fp).remaining = bodyBytes sh fp

/-- The session with the new logits. -/
def withLogits (sh : Shape) (s : CpuSession) (fp : Source) : CpuSession :=
  { s with logits := (tokensEnd fp).peek sh.logitsBytes }

/-- The session with the caches. -/
def withBody (sh : Shape) (s : CpuSession) (fp : Source) : CpuSession :=
  stepAll sh (streamHeader fp) (streamWords (logitsEnd sh fp) sh.nLayer)
    (streamWords ((logitsEnd sh fp).skip (4 * sh.nLayer)) sh.nLayer) (bodyBuffers sh)
    (countsEnd sh fp) (begin sh (s.withLogits sh fp))

/-- The session after an accepted load. -/
def loaded (sh : Shape) (s : CpuSession) (fp : Source) : CpuSession :=
  commit (streamTokens fp) (s.withBody sh fp)

/-- The load once the counters are read. -/
theorem exec_load_body (hlen : s.logits.length = sh.logitsBytes) (hh : HeadFits sh s fp)
    (hc : CountsReached sh s fp) :
    (sessionLoadPayload sh).exec (fp, s) =
      Reader.exec (do
        forM (bodyBuffers sh) (step sh (streamHeader fp) (streamWords (logitsEnd sh fp) sh.nLayer)
          (streamWords ((logitsEnd sh fp).skip (4 * sh.nLayer)) sh.nLayer))
        let left ← Reader.getRemaining
        check (if left ≠ 0 then some "KV checkpoint has trailing payload bytes" else none)
        Reader.modifyState (commit (streamTokens fp)))
        (countsEnd sh fp, begin sh (s.withLogits sh fp)) := by
  obtain ⟨hlog, hcounts⟩ := hc
  have hlogits := exec_loadLogits_ok hlog hlen
  have hcount := @exec_loadCounts_ok sh (s.withLogits sh fp) (logitsEnd sh fp) (streamHeader fp)
    ⟨hcounts.size, hcounts.nComp, hcounts.nIndexComp⟩
  have hloop : ∀ nComp nIndexComp, forM (List.range sh.nLayer)
      (loadLayer sh (streamHeader fp) nComp nIndexComp) =
      forM (bodyBuffers sh) (step sh (streamHeader fp) nComp nIndexComp) := by
    intro nComp nIndexComp
    rw [bodyBuffers, Reader.forM_flatMap]
    exact congrArg _ (funext fun il => loadLayer_eq (streamHeader fp) nComp nIndexComp il)
  unfold sessionLoadPayload
  rw [Reader.exec_bind_ok (exec_loadHead_ok hh)]
  dsimp only
  rw [Reader.exec_bind_ok hlogits]
  show Reader.exec (loadCounts sh (streamHeader fp) >>= _) (logitsEnd sh fp, s.withLogits sh fp) = _
  rw [Reader.exec_bind_ok hcount]
  dsimp only
  rw [hloop, Reader.exec_bind_ok (Reader.exec_modifyState _ _)]
  rfl

/-- The sizes of the buffers when the caches are read. -/
theorem length_begin_buf (s : CpuSession) (fp : Source) (b : Buffer) :
    ((begin sh (s.withLogits sh fp)).buf b).length =
      liveBytes sh (kvRawCap sh s.ctxSize) (kvCompCap sh s.ctxSize) (kvCompCap sh s.ctxSize) b :=
  length_kvInitBuf s.ctxSize b

/-- Sections that arrive whole and fit are no longer than their buffers. -/
theorem NoOverflow.le {len size : Buffer → Nat} {bs : List Buffer} {fp : Source}
    (h : NoOverflow len size bs fp) (hav : (bs.map len).sum ≤ fp.avail) :
    ∀ b ∈ bs, len b ≤ size b := by
  induction bs generalizing fp with
  | nil => exact fun b hb => absurd hb List.not_mem_nil
  | cons b bs ih =>
    rw [List.map_cons, List.sum_cons] at hav
    have hb : len b ≤ fp.avail := by omega
    have hlen := Source.peek_length_of_avail hb
    unfold Source.avail at hb
    obtain ⟨hroom, hnext⟩ := h (by omega)
    have hrest := ih (hnext (show _ ≤ fp.data.length - fp.pos by omega))
      (by rw [Source.avail_skip]; omega)
    intro c hc
    obtain rfl | hc := List.mem_cons.mp hc
    · omega
    · exact hrest c hc

/-- The other way round. -/
theorem NoOverflow.of_le {len size : Buffer → Nat} {bs : List Buffer} {fp : Source}
    (h : ∀ b ∈ bs, len b ≤ size b) : NoOverflow len size bs fp := by
  induction bs generalizing fp with
  | nil => trivial
  | cons b bs ih =>
    intro _
    exact ⟨Nat.le_trans (fp.peek_length_le _) (h b List.mem_cons_self),
      fun _ => ih fun c hc => h c (List.mem_cons_of_mem _ hc)⟩

/-- The caches, all of them there. -/
theorem exec_body_ok (hav : bodyBytes sh fp ≤ (countsEnd sh fp).avail) (hroom : BodyFits sh s fp) :
    Reader.exec (forM (bodyBuffers sh) (step sh (streamHeader fp)
        (streamWords (logitsEnd sh fp) sh.nLayer)
        (streamWords ((logitsEnd sh fp).skip (4 * sh.nLayer)) sh.nLayer)))
      (countsEnd sh fp, begin sh (s.withLogits sh fp)) =
        (.ok ⟨⟩, (countsEnd sh fp).skip (bodyBytes sh fp), s.withBody sh fp) := by
  refine exec_forM_step_ok hav fun b hb => ?_
  rw [length_begin_buf]
  exact hroom.le hav b hb

/-- **An accepted load.** -/
theorem exec_sessionLoadPayload_ok (hlen : s.logits.length = sh.logitsBytes)
    (h : Accepts sh s fp) :
    (sessionLoadPayload sh).exec (fp, s) =
      (.ok (), (countsEnd sh fp).skip (bodyBytes sh fp), s.loaded sh fp) := by
  have hbody := h.body
  have hleft : ((countsEnd sh fp).skip (bodyBytes sh fp)).remaining = 0 := by
    have hwhole := h.whole
    rw [Source.skip_remaining]
    omega
  rw [exec_load_body hlen h.head h.counts, Reader.exec_bind_ok (exec_body_ok hbody h.fits),
    Reader.exec_bind_ok (Reader.exec_getRemaining _)]
  dsimp only
  rw [hleft]
  rfl

/-- **A refused load**: it ends before the logits, in them, in the counters, or behind them; past
    the counters the checkpoint is no longer valid. -/
theorem exec_sessionLoadPayload_error (hlen : s.logits.length = sh.logitsBytes)
    (h : ¬ Accepts sh s fp) (hfits : HeadFits sh s fp → CountsReached sh s fp → BodyFits sh s fp) :
    ∃ e fp' s', (sessionLoadPayload sh).exec (fp, s) = (.error (.failed e), fp', s') ∧
      (¬ HeadFits sh s fp ∧ s' = s ∨
        HeadFits sh s fp ∧
          (¬ CountsReached sh s fp ∧
              s' = { s with logits := tornLogits sh s.logits (tokensEnd fp) } ∨
            CountsReached sh s fp ∧ s'.checkpointValid = false)) := by
  by_cases hh : HeadFits sh s fp
  · have hhead := exec_loadHead_ok hh
    by_cases hlog : sh.logitsBytes ≤ (tokensEnd fp).avail
    · have hlogits := exec_loadLogits_ok hlog hlen
      by_cases hc : CountsReached sh s fp
      · rw [exec_load_body hlen hh hc]
        have hroom := hfits hh hc
        by_cases hav : bodyBytes sh fp ≤ (countsEnd sh fp).avail
        -- everything is there, but bytes are left over
        · have hleft : ((countsEnd sh fp).skip (bodyBytes sh fp)).remaining ≠ 0 := by
            intro h0
            rw [Source.skip_remaining] at h0
            have hle := hav
            unfold Source.avail at hle
            exact h ⟨hh, hc, hroom, hav, by omega⟩
          rw [Reader.exec_bind_ok (exec_body_ok hav hroom),
            Reader.exec_bind_ok (Reader.exec_getRemaining _)]
          dsimp only
          rw [if_pos hleft]
          have hhost : (s.withBody sh fp).toHost = (begin sh (s.withLogits sh fp)).toHost :=
            stepAll_toHost ..
          refine ⟨_, _, s.withBody sh fp, Reader.exec_bind_error (exec_check_some _ _),
            Or.inr ⟨hh, Or.inr ⟨hc, ?_⟩⟩⟩
          show (s.withBody sh fp).toHost.checkpointValid = false
          rw [hhost]
          rfl
        · obtain ⟨e, fp', s', he, hs'⟩ := @exec_forM_step_error sh
            (begin sh (s.withLogits sh fp)) (countsEnd sh fp) (streamHeader fp)
            (streamWords (logitsEnd sh fp) sh.nLayer)
            (streamWords ((logitsEnd sh fp).skip (4 * sh.nLayer)) sh.nLayer) (bodyBuffers sh) _
            (length_begin_buf s fp) hroom (Nat.lt_of_not_le hav)
          refine ⟨e, fp', s', Reader.exec_bind_error he, Or.inr ⟨hh, Or.inr ⟨hc, ?_⟩⟩⟩
          show s'.toHost.checkpointValid = false
          rw [hs']
          rfl
      · obtain ⟨e, fp', he⟩ := @exec_loadCounts_error sh (s.withLogits sh fp) (logitsEnd sh fp)
          (streamHeader fp) fun hcf => hc ⟨hlog, hcf.size, hcf.nComp, hcf.nIndexComp⟩
        refine ⟨e, fp', s.withLogits sh fp, ?_, Or.inr ⟨hh, Or.inl ⟨hc, ?_⟩⟩⟩
        · unfold sessionLoadPayload
          rw [Reader.exec_bind_ok hhead]
          dsimp only
          rw [Reader.exec_bind_ok hlogits]
          exact Reader.exec_bind_error he
        · rw [tornLogits_of_avail hlog hlen]
          rfl
    · obtain ⟨e, fp', he⟩ := @exec_loadLogits_error sh s (tokensEnd fp) (by omega)
      refine ⟨e, fp', _, ?_, Or.inr ⟨hh, Or.inl ⟨fun hc => hlog hc.1, rfl⟩⟩⟩
      unfold sessionLoadPayload
      rw [Reader.exec_bind_ok hhead]
      exact Reader.exec_bind_error he
  · obtain ⟨e, fp', he⟩ := exec_loadHead_error hh
    exact ⟨e, fp', s, Reader.exec_bind_error he, Or.inl ⟨hh, rfl⟩⟩

/-- **A section too long** for its buffer is written past its end. -/
theorem exec_sessionLoadPayload_overflow (hlen : s.logits.length = sh.logitsBytes)
    (hh : HeadFits sh s fp) (hc : CountsReached sh s fp) (hover : ¬ BodyFits sh s fp) :
    ∃ b fp' s', (sessionLoadPayload sh).exec (fp, s) = (.error (.overflow b), fp', s') := by
  obtain ⟨b, fp', s', he⟩ := @exec_forM_step_overflow sh (begin sh (s.withLogits sh fp))
    (countsEnd sh fp) (streamHeader fp) (streamWords (logitsEnd sh fp) sh.nLayer)
    (streamWords ((logitsEnd sh fp).skip (4 * sh.nLayer)) sh.nLayer) (bodyBuffers sh) _
    (length_begin_buf s fp) hover
  rw [exec_load_body hlen hh hc]
  exact ⟨b, fp', s', Reader.exec_bind_error he⟩

end CpuSession

end DS4.Checkpoint
