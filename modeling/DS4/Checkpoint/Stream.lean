import DS4.Checkpoint.Content

namespace DS4.Checkpoint

/-!
# Session payloads — the stages of a stream

A payload is header, tokens, logits, row counters and caches, one after the other; both back ends
read it in this order.

* `tokensEnd`, `logitsEnd`, `countsEnd` — the stream behind the stages; `streamTokens`,
  `streamNComp`, `streamNIndexComp`, `bodyBytes` — what it says.
* `headerError_eq_none_iff` — what the checks of the header let through.
* `tornLogits` — the logits after a load that broke off in them.
* `Content.Encoded` — the stream holds the encoding of a content, and its length is declared.
-/

open DS4.Lib

/-! ### Counters without growth -/

/-- Without growth the counters are compared as they stand. -/
theorem allFit_const {σ : Type} {fits : Nat → Nat → σ → Bool} {s : σ} {ils vs : List Nat} :
    AllFit (fun _ _ s => s) fits ils vs s ↔ ∀ p ∈ ils.zip vs, fits p.1 p.2 s = true := by
  induction ils generalizing vs with
  | nil => exact ⟨fun _ p hp => absurd hp List.not_mem_nil, fun _ => trivial⟩
  | cons il ils ih =>
    cases vs with
    | nil => exact ⟨fun _ p hp => absurd hp List.not_mem_nil, fun _ => trivial⟩
    | cons v vs =>
      rw [List.zip_cons_cons, List.forall_mem_cons]
      unfold AllFit
      rw [ih]

theorem growAll_const {σ : Type} (s : σ) (ils vs : List Nat) :
    growAll (fun _ _ s => s) ils vs s = s := by
  induction ils generalizing vs with
  | nil => rfl
  | cons il ils ih =>
    cases vs with
    | nil => rfl
    | cons v vs => exact ih vs

theorem getD_zip_range {n il : Nat} (hil : il < n) {ws : List Nat} (hlen : ws.length = n) :
    (il, ws.getD il 0) ∈ (List.range n).zip ws := by
  refine List.mem_iff_getElem.mpr ⟨il, by rw [List.length_zip, List.length_range]; omega, ?_⟩
  rw [List.getElem_zip, List.getElem_range, List.getD_eq_getElem?_getD,
    List.getElem?_eq_getElem (by omega), Option.getD_some]

theorem mem_zip_range {n : Nat} {f : Nat → Nat} {p : Nat × Nat}
    (hp : p ∈ (List.range n).zip ((List.range n).map f)) : p.1 < n ∧ p.2 = f p.1 := by
  rw [List.zip_map_right, List.mem_map] at hp
  obtain ⟨q, hq, rfl⟩ := hp
  obtain ⟨a, b⟩ := q
  obtain ⟨ha, -⟩ := List.of_mem_zip hq
  obtain ⟨i, hi, he⟩ := List.mem_iff_getElem.mp hq
  rw [List.getElem_zip, List.getElem_range] at he
  obtain ⟨rfl, rfl⟩ := Prod.mk.inj he
  exact ⟨List.mem_range.mp ha, rfl⟩

/-! ### Stages -/

/-- The stream behind the tokens. -/
def tokensEnd (fp : Source) : Source := fp.skip (52 + 4 * (streamHeader fp).tokens)

/-- The stream behind the logits. -/
def logitsEnd (sh : Shape) (fp : Source) : Source := (tokensEnd fp).skip sh.logitsBytes

/-- The stream behind the counters. -/
def countsEnd (sh : Shape) (fp : Source) : Source :=
  (logitsEnd sh fp).skip (4 * sh.nLayer + 4 * sh.nLayer)

/-- The tokens of the payload. -/
def streamTokens (fp : Source) : List Int :=
  (streamWords (fp.skip 52) (streamHeader fp).tokens).map i32

/-- The compressor counters of the payload. -/
def streamNComp (sh : Shape) (fp : Source) (il : Nat) : Nat :=
  (streamWords (logitsEnd sh fp) sh.nLayer).getD il 0

/-- The indexer counters of the payload. -/
def streamNIndexComp (sh : Shape) (fp : Source) (il : Nat) : Nat :=
  (streamWords ((logitsEnd sh fp).skip (4 * sh.nLayer)) sh.nLayer).getD il 0

/-- How many bytes the counters announce for the caches. -/
def bodyBytes (sh : Shape) (fp : Source) : Nat :=
  ((bodyBuffers sh).map
    (liveBytes sh (streamHeader fp).rawLive (streamNComp sh fp) (streamNIndexComp sh fp))).sum

/-- What the checks of the header let through. -/
structure HeaderFits (sh : Shape) (ctx prefill window ring : Nat) (h : PayloadHeader) : Prop where
  ctxSize_le : h.ctxSize ≤ ctx
  tokens_lt : h.tokens < ctx
  nLayer : h.nLayer = sh.nLayer
  headDim : h.headDim = sh.headDim
  indexerHeadDim : h.indexerHeadDim = sh.indexerHeadDim
  nVocab : h.nVocab = sh.nVocab
  prefillCap : h.prefillCap = prefill
  rawWindow : h.rawWindow = window
  rawCap_pos : 0 < h.rawCap
  rawLive : h.rawLive = min h.tokens window
  rawLive_le_saved : h.rawLive ≤ h.rawCap
  rawLive_le : h.rawLive ≤ ring

theorem headerError_eq_none_iff {sh : Shape} {ctx prefill window ring : Nat} {h : PayloadHeader} :
    headerError sh ctx prefill window ring h = none ↔ HeaderFits sh ctx prefill window ring h := by
  have hmin : (if h.tokens < h.rawWindow then h.tokens else h.rawWindow) =
      min h.tokens h.rawWindow := by
    split <;> omega
  unfold headerError
  dsimp only
  rw [hmin]
  constructor
  · intro h0
    split at h0
    · cases h0
    · split at h0
      · cases h0
      · split at h0
        · cases h0
        · split at h0
          · cases h0
          · constructor <;> omega
  · intro hf
    have hw := hf.rawWindow
    have hl := hf.rawLive
    rw [if_neg (by have := hf.ctxSize_le; have := hf.tokens_lt; omega),
      if_neg (by
        have := hf.nLayer; have := hf.headDim; have := hf.indexerHeadDim; have := hf.nVocab
        omega),
      if_neg (by have := hf.prefillCap; omega),
      if_neg (by
        have := hf.rawCap_pos; have := hf.rawLive_le_saved; have := hf.rawLive_le
        omega)]

/-- The logits that a load leaves behind: the old ones when the declared length is too small, else
    as many of the new ones as the stream has. -/
def tornLogits (sh : Shape) (old : List UInt8) (fp : Source) : List UInt8 :=
  if fp.remaining < sh.logitsBytes then old else splice old 0 (fp.peek sh.logitsBytes)

theorem tornLogits_of_avail {sh : Shape} {old : List UInt8} {fp : Source}
    (h : sh.logitsBytes ≤ fp.avail) (hlen : old.length = sh.logitsBytes) :
    tornLogits sh old fp = fp.peek sh.logitsBytes := by
  have hpeek := Source.peek_length_of_avail h
  unfold Source.avail at h
  rw [tornLogits, if_neg (by omega), splice, List.take_zero, List.nil_append,
    List.drop_of_length_le (by omega), List.append_nil]

/-! ### An encoded stream -/

/-- The stream goes on with the encoding of `c`, whose length was declared. -/
structure Content.Encoded (sh : Shape) (c : Content) (h : PayloadHeader) (fp : Source) : Prop where
  sized : c.Sized sh h.rawLive
  words : ∀ w ∈ h.words, w < 256 ^ 4
  tokens : h.tokens = c.tokens.length
  next : fp.Next (c.encode sh h)
  declared : fp.remaining = (c.encode sh h).length

namespace Content.Encoded

variable {sh : Shape} {c : Content} {h : PayloadHeader} {fp : Source}

theorem header (he : c.Encoded sh h fp) : streamHeader fp = h := by
  have hw := he.next.left.left.left.left.left
  have hwords := streamWords_of_next he.words hw
  unfold streamHeader
  rw [← PayloadHeader.words_length h, hwords, PayloadHeader.ofWords_words]

theorem tokensEnd_eq (he : c.Encoded sh h fp) :
    tokensEnd fp = fp.skip (putWords h.words ++ putWords (c.tokens.map u32)).length := by
  rw [tokensEnd, he.header, he.tokens, List.length_append, putWords_length, putWords_length,
    List.length_map, PayloadHeader.words_length]
  rfl

theorem streamTokens_eq (he : c.Encoded sh h fp) : streamTokens fp = c.tokens := by
  have hnext := he.next.left.left.left.left.right
  have hlt : ∀ w ∈ c.tokens.map u32, w < 256 ^ 4 := by
    intro w hw
    obtain ⟨t, -, rfl⟩ := List.mem_map.mp hw
    exact u32_lt t
  have hwords := streamWords_of_next hlt hnext
  rw [List.length_map, ← he.tokens, putWords_length, PayloadHeader.words_length] at hwords
  unfold streamTokens
  rw [he.header]
  show (streamWords (fp.skip (4 * DS4_SESSION_PAYLOAD_U32_FIELDS)) h.tokens).map i32 = _
  rw [hwords, List.map_map]
  calc c.tokens.map (i32 ∘ u32) = c.tokens.map id :=
        List.map_congr_left fun t ht => i32_u32 (he.sized.tokens t ht)
    _ = c.tokens := List.map_id _

theorem logits_next (he : c.Encoded sh h fp) : (tokensEnd fp).Next c.logits := by
  rw [he.tokensEnd_eq]
  exact he.next.left.left.left.right

theorem logits_peek (he : c.Encoded sh h fp) :
    (tokensEnd fp).peek sh.logitsBytes = c.logits := by
  rw [← he.sized.logits]
  exact he.logits_next.peek

theorem logitsEnd_eq (he : c.Encoded sh h fp) :
    logitsEnd sh fp =
      fp.skip (putWords h.words ++ putWords (c.tokens.map u32) ++ c.logits).length := by
  rw [logitsEnd, he.tokensEnd_eq, Source.skip_skip, ← he.sized.logits, ← List.length_append]

/-- Counters that are next in a stream. -/
theorem counts_of_next {fp : Source} {n : Nat} {f : Nat → Nat} (hf : ∀ il < n, f il < 256 ^ 4)
    (hnext : fp.Next (putWords ((List.range n).map f))) :
    streamWords fp n = (List.range n).map f := by
  have hlt : ∀ w ∈ (List.range n).map f, w < 256 ^ 4 := by
    intro w hw
    obtain ⟨il, hil, rfl⟩ := List.mem_map.mp hw
    exact hf il (List.mem_range.mp hil)
  have hwords := streamWords_of_next hlt hnext
  rw [List.length_map, List.length_range] at hwords
  exact hwords

theorem nComp_words (he : c.Encoded sh h fp) :
    streamWords (logitsEnd sh fp) sh.nLayer = (List.range sh.nLayer).map c.nComp := by
  refine counts_of_next he.sized.nComp ?_
  rw [he.logitsEnd_eq]
  exact he.next.left.left.right

theorem nIndexComp_words (he : c.Encoded sh h fp) :
    streamWords ((logitsEnd sh fp).skip (4 * sh.nLayer)) sh.nLayer =
      (List.range sh.nLayer).map c.nIndexComp := by
  refine counts_of_next he.sized.nIndexComp ?_
  have hnext := he.next.left.right
  rw [List.length_append, ← Source.skip_skip, ← he.logitsEnd_eq, putWords_length, List.length_map,
    List.length_range] at hnext
  exact hnext

theorem getD_map_range {n il : Nat} (hil : il < n) (f : Nat → Nat) :
    ((List.range n).map f).getD il 0 = f il := by
  rw [List.getD_eq_getElem?_getD, List.getElem?_eq_getElem (by simpa using hil), Option.getD_some,
    List.getElem_map, List.getElem_range]

theorem streamNComp_eq (he : c.Encoded sh h fp) {il : Nat} (hil : il < sh.nLayer) :
    streamNComp sh fp il = c.nComp il := by
  unfold streamNComp
  rw [he.nComp_words, getD_map_range hil]

theorem streamNIndexComp_eq (he : c.Encoded sh h fp) {il : Nat} (hil : il < sh.nLayer) :
    streamNIndexComp sh fp il = c.nIndexComp il := by
  unfold streamNIndexComp
  rw [he.nIndexComp_words, getD_map_range hil]

theorem countsEnd_eq (he : c.Encoded sh h fp) :
    countsEnd sh fp = fp.skip (putWords h.words ++ putWords (c.tokens.map u32) ++ c.logits ++
      putWords ((List.range sh.nLayer).map c.nComp) ++
      putWords ((List.range sh.nLayer).map c.nIndexComp)).length := by
  rw [countsEnd, he.logitsEnd_eq, Source.skip_skip]
  congr 1
  simp only [List.length_append, putWords_length, List.length_map, List.length_range]
  omega

/-- The caches are next behind the counters. -/
theorem body_next (he : c.Encoded sh h fp) :
    (countsEnd sh fp).Next ((bodyBuffers sh).flatMap c.live) := by
  rw [he.countsEnd_eq]
  exact he.next.right

/-- Nothing else belongs to the payload. -/
theorem body_declared (he : c.Encoded sh h fp) :
    (countsEnd sh fp).remaining = ((bodyBuffers sh).flatMap c.live).length := by
  have hdecl := he.declared
  unfold Content.encode at hdecl
  rw [List.length_append] at hdecl
  rw [he.countsEnd_eq, Source.skip_remaining]
  omega

/-- The counters announce as many bytes as the caches have. -/
theorem bodyBytes_eq (he : c.Encoded sh h fp) :
    bodyBytes sh fp = ((bodyBuffers sh).flatMap c.live).length := by
  rw [length_flatMap_of he.sized.live]
  unfold bodyBytes
  congr 1
  refine List.map_congr_left fun b hb => ?_
  have hlayer := (mem_bodyBuffers sh).mp hb
  rw [he.header]
  exact liveBytes_congr (he.streamNComp_eq hlayer) (he.streamNIndexComp_eq hlayer)

end Content.Encoded

end DS4.Checkpoint
