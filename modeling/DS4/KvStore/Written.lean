import DS4.KvStore.Load

namespace DS4.KvStore

/-!
# The KV cache — the files that are written

A file is written by a store, written over in part when its trailer is replaced, and when it is
touched.  In the last two cases it goes on saying the same.

* `LiveSession` — a session that the engine has.
* `whole_storeFile` — a file that a store has written can be read; `textOf_storeFile`,
  `payloadOf_storeFile` — it holds the text and the payload.
* `Rewritten` — a file written over; `rewritten_withTrailer`, `rewritten_touchFile`.
-/

open DS4.Lib DS4.Checkpoint

variable {sh : Shape} {cg : CtxGrow} {env : Env} {engine : Engine} {kc : Store} {s : Session}
  {r : StoreRequest} {dir dir' : Dir} {name : Name}

/-! ### The file that is written -/

/-- A session that the engine has, with a checkpoint or without. -/
structure LiveSession (sh : Shape) (cg : CtxGrow) where
  session : Session
  wellFormed : session.WellFormed sh cg
  valid : session.host.checkpointValid = true → session.Valid sh cg

theorem checkpointValid_of_payloadBytes (h : s.payloadBytes sh ≠ 0) :
    s.host.checkpointValid = true := by
  by_contra hv
  refine h ?_
  cases s with
  | graph g =>
    show g.sessionPayloadBytes sh = 0
    unfold GraphSession.sessionPayloadBytes
    exact if_neg hv
  | cpu c =>
    show c.sessionPayloadBytes sh = 0
    unfold CpuSession.sessionPayloadBytes
    exact if_neg hv

/-- The header of a new file, as it is read. -/
def storedHeader (sh : Shape) (now : Nat) (engine : Engine) (s : Session) (r : StoreRequest)
    (extFlags : UInt8) : Header where
  quantBits := UInt8.ofNat engine.quantBits.toNat
  reason := reasonCode r.reason
  extFlags := extFlags
  tokens := (tokensCopyPrefix r.tokens r.storeLen).length
  hits := 0
  ctxSize := s.host.ctxSize
  createdAt := now % 256 ^ 8
  lastUsed := now % 256 ^ 8
  payloadBytes := s.payloadBytes sh
  textBytes := (storeText engine r).length

theorem storeFile_length (now est : Nat) (payload trailer : List UInt8) :
    (storeFile sh now engine s r est payload trailer).length =
      52 + (storeText engine r).length + payload.length + trailer.length := by
  unfold storeFile storeHeader
  dsimp only
  rw [List.length_append, List.length_append, List.length_append, List.length_append,
    fillHeader_length, leBytes_length, DS4_KVSTORE_FIXED_HEADER]

/-- The context of a live session is a positive `int`, and holds its tokens. -/
theorem valid_bounds (h : s.Valid sh cg) :
    s.host.checkpoint.length < s.host.ctxSize ∧ s.host.ctxSize < 2 ^ 31 := by
  cases s with
  | graph g =>
    have hg : g.Valid sh cg := h
    exact ⟨hg.len_lt, hg.ctx_lt⟩
  | cpu c =>
    have hc : c.Valid sh := h
    exact ⟨hc.len_lt, hc.ctx_lt⟩

/-- **A new file** can be read again, if it has a token. -/
theorem whole_storeFile {est : Nat} (hready : StoreReady sh engine kc s r est) (hv : s.Valid sh cg)
    (hne : tokensCopyPrefix r.tokens r.storeLen ≠ []) (now : Nat) {payload : List UInt8}
    (hpayload : payload.length = s.payloadBytes sh) (trailer : List UInt8) :
    ∃ extFlags, Whole (storedHeader sh now engine s r extFlags)
      (storeFile sh now engine s r est payload trailer) := by
  obtain ⟨hlen, hctx⟩ := valid_bounds hv
  have hfits := (le_of_fileSizeFits hready.fits).1
  have htext := hready.text
  have hlive := hready.live
  unfold UINT32_MAX at htext
  have hquant : UInt8.ofNat engine.quantBits.toNat = 2 ∨ UInt8.ofNat engine.quantBits.toNat = 4 := by
    obtain h | h := hready.quantBits <;> rw [h]
    · exact Or.inl rfl
    · exact Or.inr rfl
  have htok : (tokensCopyPrefix r.tokens r.storeLen).length ≠ 0 :=
    fun h0 => hne (List.length_eq_zero_iff.mp h0)
  rw [hlive] at hlen
  obtain ⟨x, hx⟩ : ∃ x, storeHeader sh now engine s r est =
      fillHeader (UInt8.ofNat engine.quantBits.toNat) (reasonCode r.reason) x
        (tokensCopyPrefix r.tokens r.storeLen).length 0 s.host.ctxSize now now (s.payloadBytes sh) :=
    ⟨_, rfl⟩
  have hsize := @storeFile_length sh engine s r now est payload trailer
  refine ⟨x, { (readHeader_eq_some_iff).mp ?_ with noWrap := ?_, size := ?_ }⟩
  · have hread := @readHeader_fillHeader (UInt8.ofNat engine.quantBits.toNat) (reasonCode r.reason) x
      (tokensCopyPrefix r.tokens r.storeLen).length 0 s.host.ctxSize now now (s.payloadBytes sh)
      (leBytes 4 (storeText engine r).length ++ storeText engine r ++ payload ++ trailer)
      hquant (reasonCode_le r.reason) htok (by omega) (by omega)
      (by unfold UINT64_MAX at hfits; omega)
      (by rw [List.length_append, List.length_append, List.length_append, leBytes_length]; omega)
    have htb : leValue ((leBytes 4 (storeText engine r).length ++ storeText engine r ++ payload ++
        trailer).take 4) = (storeText engine r).length := by
      rw [List.append_assoc, List.append_assoc, List.take_left' (leBytes_length 4 _),
        leValue_leBytes_of_lt (by omega)]
    rw [htb] at hread
    unfold storeFile
    rw [hx, List.append_assoc, List.append_assoc, List.append_assoc]
    rw [List.append_assoc, List.append_assoc] at hread
    exact hread
  · show 52 + (storeText engine r).length + s.payloadBytes sh ≤ UINT64_MAX
    omega
  · show 52 + (storeText engine r).length + s.payloadBytes sh ≤ _
    omega

/-- The payload of a file. -/
def payloadOf (bytes : List UInt8) (e : Header) : List UInt8 :=
  (bytes.drop (52 + e.textBytes)).take e.payloadBytes

theorem storeFile_eq (now est : Nat) (payload trailer : List UInt8) :
    ∃ start, start.length = 52 ∧ storeFile sh now engine s r est payload trailer =
      start ++ (storeText engine r ++ (payload ++ trailer)) := by
  refine ⟨storeHeader sh now engine s r est ++ leBytes 4 (storeText engine r).length, ?_, ?_⟩
  · unfold storeHeader
    dsimp only
    rw [List.length_append, fillHeader_length, leBytes_length, DS4_KVSTORE_FIXED_HEADER]
  · unfold storeFile
    rw [List.append_assoc, List.append_assoc]

theorem textOf_storeFile (now est : Nat) (payload trailer : List UInt8) :
    textOf (storeFile sh now engine s r est payload trailer) (storeText engine r).length =
      storeText engine r := by
  obtain ⟨start, hlen, he⟩ := @storeFile_eq sh engine s r now est payload trailer
  rw [textOf, he, List.drop_left' hlen, List.take_left' rfl]

theorem payloadOf_storeFile {now est : Nat} {payload trailer : List UInt8} {e : Header}
    (htext : e.textBytes = (storeText engine r).length) (hpayload : e.payloadBytes = payload.length) :
    payloadOf (storeFile sh now engine s r est payload trailer) e = payload := by
  obtain ⟨start, hlen, he⟩ := @storeFile_eq sh engine s r now est payload trailer
  rw [payloadOf, he, htext, hpayload, ← List.drop_drop, List.drop_left' hlen, List.drop_left' rfl,
    List.take_left' rfl]

/-- A file with this text is compatible, if quantization and context are. -/
theorem compatible_of_text {e : Entry} {text bytes : List UInt8} {q : Int} {ctx : Nat}
    (hr : e.toHeader.Readable bytes) (htext : textOf bytes e.textBytes = text)
    (hlen : e.textBytes = text.length) (hmax : text.length ≤ UINT32_MAX)
    (hquant : (!kc.rejectDifferentQuant || e.quantBits == UInt8.ofNat q.toNat) = true)
    (hctx : e.ctxSize ≤ ctx) : compatible kc (sha1BytesHex text) text q ctx e bytes = true := by
  have hmatch : fileTextMatches (sha1BytesHex text) text bytes = true := by
    unfold fileTextMatches
    rw [if_neg (Nat.not_lt.mpr hmax), (readHeader_eq_some_iff).mpr hr]
    dsimp only
    rw [if_neg (not_not.mpr hlen), htext, if_neg (not_not.mpr hlen.symm), beq_self_eq_true,
      beq_self_eq_true]
    rfl
  rw [compatible, hquant, decide_eq_true hctx, hmatch]
  rfl

/-! ### A file written over -/

theorem truncate_of_le {bytes : List UInt8} {n : Nat} (h : n ≤ bytes.length) :
    truncate bytes n = bytes.take n := by
  rw [truncate, Nat.sub_eq_zero_of_le h, List.replicate_zero, List.append_nil]

/-- A file written over with what it says kept: only hits, times and flags of the header differ, and
    what is behind the payload. -/
structure Rewritten (e : Header) (bytes : List UInt8) (e' : Header) (bytes' : List UInt8) : Prop where
  whole : Whole e' bytes'
  tokens : e'.tokens = e.tokens
  quantBits : e'.quantBits = e.quantBits
  ctxSize : e'.ctxSize = e.ctxSize
  textBytes : e'.textBytes = e.textBytes
  payloadBytes : e'.payloadBytes = e.payloadBytes
  body : (bytes'.drop 52).take (e.textBytes + e.payloadBytes) =
    (bytes.drop 52).take (e.textBytes + e.payloadBytes)

/-- A header filled in again, before the same text and payload. -/
theorem Whole.rewritten {e : Header} {bytes : List UInt8} (h : Whole e bytes) (x : UInt8) (n u : Nat)
    {file : List UInt8} (hlen : 52 + e.textBytes + e.payloadBytes ≤ file.length)
    (hstart : file.take (52 + e.textBytes + e.payloadBytes) =
      bytes.take (52 + e.textBytes + e.payloadBytes)) :
    Rewritten e bytes { e with extFlags := x, hits := n % 256 ^ 4, lastUsed := u % 256 ^ 8 }
      (fillHeader e.quantBits e.reason x e.tokens n e.ctxSize e.createdAt u e.payloadBytes ++
        file.drop DS4_KVSTORE_FIXED_HEADER) := by
  have hdrop : ∀ k ≤ 52, ∀ m, k + m ≤ 52 + e.textBytes + e.payloadBytes →
      (file.drop k).take m = (bytes.drop k).take m := by
    intro k hk m hm
    have h1 := congrArg (fun l => (l.drop k).take m) hstart
    have hle : m ≤ 52 + e.textBytes + e.payloadBytes - k := by omega
    simpa only [List.drop_take, List.take_take, Nat.min_eq_left hle] using h1
  have hfixed : DS4_KVSTORE_FIXED_HEADER = 48 := rfl
  refine ⟨h.refill x n u ?_ ?_, rfl, rfl, rfl, rfl, rfl, ?_⟩
  · rw [List.length_drop, hfixed]
    omega
  · exact hdrop 48 (by decide) 4 (by omega)
  · have h4 : (fillHeader e.quantBits e.reason x e.tokens n e.ctxSize e.createdAt u e.payloadBytes ++
        file.drop DS4_KVSTORE_FIXED_HEADER).drop 52 = file.drop 52 := by
      have hhead := fillHeader_length e.quantBits e.reason x e.tokens n e.ctxSize e.createdAt u
        e.payloadBytes
      rw [hfixed] at hhead
      rw [show (52 : Nat) = 48 + 4 from rfl, ← List.drop_drop, List.drop_left' hhead, List.drop_drop]
      rfl
    rw [h4]
    exact hdrop 52 (Nat.le_refl _) _ (by omega)

/-- **A file whose trailer is replaced** says the same, and is as long as its parts. -/
theorem rewritten_withTrailer {e : Header} {bytes : List UInt8} (h : Whole e bytes) (now : Nat)
    (hooks : TrailerHooks) (text : List UInt8) :
    (∃ e', Rewritten e bytes e' (withTrailer now hooks text bytes)) ∧
      (withTrailer now hooks text bytes).length =
        if INT64_MAX < 52 + e.textBytes + e.payloadBytes then bytes.length
        else 52 + e.textBytes + e.payloadBytes + (trailerWrite (some hooks) text).2.1.length := by
  have hread := (readHeader_eq_some_iff).mpr h.toReadable
  have hsize := h.size
  unfold withTrailer
  rw [hread]
  dsimp only
  generalize (trailerWrite (some hooks) text).2.1 = trailer
  have hstop : DS4_KVSTORE_FIXED_HEADER + 4 + e.textBytes + e.payloadBytes =
      52 + e.textBytes + e.payloadBytes := rfl
  rw [hstop]
  by_cases hmax : INT64_MAX < 52 + e.textBytes + e.payloadBytes
  -- the trailer is not written
  · rw [if_pos hmax, if_pos hmax]
    exact ⟨⟨e, h, rfl, rfl, rfl, rfl, rfl, rfl⟩, rfl⟩
  · rw [if_neg hmax, if_neg hmax, truncate_of_le hsize]
    have htake : (bytes.take (52 + e.textBytes + e.payloadBytes)).length =
        52 + e.textBytes + e.payloadBytes := by
      rw [List.length_take, Nat.min_eq_left hsize]
    have hlen : (bytes.take (52 + e.textBytes + e.payloadBytes) ++ trailer).length =
        52 + e.textBytes + e.payloadBytes + trailer.length := by
      rw [List.length_append, htake]
    have hstart : (bytes.take (52 + e.textBytes + e.payloadBytes) ++ trailer).take
        (52 + e.textBytes + e.payloadBytes) = bytes.take (52 + e.textBytes + e.payloadBytes) :=
      List.take_left' htake
    split
    · refine ⟨⟨_, h.rewritten (e.extFlags ||| hooks.extFlag) e.hits now (by omega) hstart⟩, ?_⟩
      rw [List.length_append, fillHeader_length, List.length_drop, hlen]
      unfold DS4_KVSTORE_FIXED_HEADER
      omega
    -- nothing was reported, so the header is left alone
    · have h52 := congrArg (List.take 52) hstart
      rw [List.take_take, List.take_take, Nat.min_eq_left (by omega)] at h52
      have hbody := congrArg (List.drop 52) hstart
      rw [List.drop_take, List.drop_take, show 52 + e.textBytes + e.payloadBytes - 52 =
        e.textBytes + e.payloadBytes by omega] at hbody
      exact ⟨⟨e, { h.toReadable.congr (by rw [hlen]; omega) h52 with
        noWrap := h.noWrap, size := by rw [hlen]; omega }, rfl, rfl, rfl, rfl, rfl, hbody⟩, hlen⟩

/-- **A file that is touched** says the same, and is as long as before. -/
theorem rewritten_touchFile {e : Header} {bytes : List UInt8} (h : Whole e bytes) (hits now : Nat) :
    (∃ e', Rewritten e bytes e' (touchFile hits now bytes)) ∧
      (touchFile hits now bytes).length = bytes.length := by
  have hread := (readHeader_eq_some_iff).mpr h.toReadable
  have hsize := h.size
  unfold touchFile
  rw [hread]
  dsimp only
  refine ⟨⟨_, h.rewritten e.extFlags hits now hsize rfl⟩, ?_⟩
  rw [List.length_append, fillHeader_length, List.length_drop]
  unfold DS4_KVSTORE_FIXED_HEADER
  omega

end DS4.KvStore
