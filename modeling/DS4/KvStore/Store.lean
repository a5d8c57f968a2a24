import DS4.KvStore.Cache
import DS4.Checkpoint.RoundTrip

namespace DS4.KvStore

/-!
# The KV cache — storing a checkpoint

The live checkpoint is stored under the text that its tokens render to, or under a text that the
caller gives.  A file that is there for the text already is kept if its header and text look right;
only its trailer is written anew then, in place and without making room.

* `Engine`, `TrailerHooks`, `StoreRequest` — what a store gets.
* `fileSizeFits` — the estimate against the budget.
* `existingCompatible`, `rewriteTrailer` — a file that is there already.
* `storeLivePrefixText`, with `store_cases` — what a store can do to the directory.
-/

open DS4.Lib DS4.Checkpoint

/-- What the cache uses of `ds4_engine`. -/
structure Engine where
  /-- `ds4_engine_routed_quant_bits` -/
  quantBits : Int
  /-- `ds4_token_text` -/
  tokenText : Int → List UInt8
  /-- `ds4_tokenize_rendered_chat` -/
  tokenizeRenderedChat : List UInt8 → List Int

/-- `ds4_kvstore_trailer_hooks` with its functions at the time of the call. -/
structure TrailerHooks where
  extFlag : UInt8
  /-- The size for a text, unless it overflows. -/
  serializedSize : Option (List UInt8 → Option Nat)
  /-- Success, what is written, and how much is reported. -/
  write : Option (List UInt8 → Bool × List UInt8 × Nat)

/-- The arguments of `ds4_kvstore_store_live_prefix_text`. -/
structure StoreRequest where
  tokens : List Int
  storeLen : Int
  reason : Option String
  cacheTextOverride : Option (List UInt8)
  cacheTextExt : UInt8
  hooks : Option TrailerHooks

/-- `ds4_kvstore_reason_code` -/
def reasonCode (reason : Option String) : UInt8 :=
  match reason with
  | some "cold"          => 1
  | some "continued"     => 2
  | some "evict"         => 3
  | some "shutdown"      => 4
  | some "agent-system"  => 5
  | some "agent-session" => 6
  | _                    => 0

theorem reasonCode_le (reason : Option String) :
    reasonCode reason ≤ DS4_KVSTORE_REASON_AGENT_SESSION := by
  unfold reasonCode
  split <;> decide

/-! ### Sizes -/

/-- `kv_cache_file_size_bytes` -/
def fileSizeBytes (textBytes payloadBytes trailerBytes : Nat) : Option Nat :=
  let fixed := DS4_KVSTORE_FIXED_HEADER + 4
  if UINT64_MAX - fixed < textBytes ∨ UINT64_MAX - fixed - textBytes < payloadBytes ∨
      UINT64_MAX - fixed - textBytes - payloadBytes < trailerBytes then none
  else some (fixed + textBytes + payloadBytes + trailerBytes)

/-- `kv_cache_budget_required`: one per cent more, rounded up. -/
def budgetRequired (fileBytes : Nat) : Option Nat :=
  let slack := if fileBytes % 100 ≠ 0 then fileBytes / 100 + 1 else fileBytes / 100
  if UINT64_MAX - fileBytes < slack then none else some (fileBytes + slack)

/-- `ds4_kvstore_file_size_fits` -/
def fileSizeFits (kc : Store) (textBytes payloadBytes trailerBytes : Nat) : Bool :=
  match fileSizeBytes textBytes payloadBytes trailerBytes with
  | none           => false
  | some fileBytes =>
    if kc.budgetBytes = 0 then true
    else
      match budgetRequired fileBytes with
      | none          => false
      | some required => required ≤ kc.budgetBytes

/-- A size that fits, of a budget that is positive. -/
theorem le_of_fileSizeFits {kc : Store} {t p r : Nat} (h : fileSizeFits kc t p r = true) :
    52 + t + p + r ≤ UINT64_MAX ∧ (0 < kc.budgetBytes → 52 + t + p + r ≤ kc.budgetBytes) := by
  unfold fileSizeFits fileSizeBytes at h
  dsimp only at h
  split at h
  · cases h
  · rename_i fileBytes hfile
    unfold DS4_KVSTORE_FIXED_HEADER UINT64_MAX at *
    split at hfile
    · cases hfile
    · cases hfile
      refine ⟨by omega, fun hpos => ?_⟩
      rw [if_neg (by omega)] at h
      split at h
      · cases h
      · rename_i required hreq
        unfold budgetRequired at hreq
        dsimp only at hreq
        generalize hslack : (if (48 + 4 + t + p + r) % 100 ≠ 0 then (48 + 4 + t + p + r) / 100 + 1
          else (48 + 4 + t + p + r) / 100) = slack at hreq
        split at hreq
        · cases hreq
        · cases hreq
          have hle := of_decide_eq_true h
          omega

/-! ### A file that is there already -/

/-- `kv_cache_file_text_matches` on a file with these bytes. -/
def fileTextMatches (sha text bytes : List UInt8) : Bool :=
  if UINT32_MAX < text.length then false
  else
    match readHeader bytes with
    | none     => false
    | some hdr =>
      if hdr.textBytes ≠ text.length then false
      else
        let stored := textOf bytes hdr.textBytes
        if stored.length ≠ hdr.textBytes then false
        else sha1BytesHex stored == sha && stored == text

/-- The checks of `kv_cache_existing_compatible` on an entry and its file. -/
def compatible (kc : Store) (sha text : List UInt8) (quantBits : Int) (ctxSize : Nat) (e : Entry)
    (bytes : List UInt8) : Bool :=
  (!kc.rejectDifferentQuant || e.quantBits == UInt8.ofNat quantBits.toNat) &&
    e.ctxSize ≤ ctxSize && fileTextMatches sha text bytes

/-- `kv_cache_existing_compatible`: a readable file that is not compatible is removed. -/
def existingCompatible (kc : Store) (name : Name) (sha text : List UInt8) (quantBits : Int)
    (ctxSize : Nat) (dir : Dir) : Bool × Dir :=
  match dir.lookup name with
  | none       => (false, dir)
  | some bytes =>
    match readEntryFile name sha bytes with
    | none   => (false, dir)
    | some e =>
      if compatible kc sha text quantBits ctxSize e bytes then (true, dir)
      else (false, dir.erase name)

/-- `kv_trailer_serialized_size` -/
def trailerSerializedSize (hooks : Option TrailerHooks) (text : List UInt8) : Option Nat :=
  match hooks.bind TrailerHooks.serializedSize with
  | none      => some 0
  | some size => size text

/-- `kv_trailer_write` -/
def trailerWrite (hooks : Option TrailerHooks) (text : List UInt8) : Bool × List UInt8 × Nat :=
  match hooks.bind TrailerHooks.write with
  | none       => (true, [], 0)
  | some write => write text

/-- `INT64_MAX` -/
def INT64_MAX : Nat := 0x7fffffffffffffff

/-- `ftruncate` -/
def truncate (bytes : List UInt8) (n : Nat) : List UInt8 :=
  bytes.take n ++ List.replicate (n - bytes.length) 0

/-- What `kv_cache_rewrite_trailer` makes of a file. -/
def withTrailer (now : Nat) (hooks : TrailerHooks) (text bytes : List UInt8) : List UInt8 :=
  match readHeader bytes with
  | none     => bytes
  | some hdr =>
    let stop := DS4_KVSTORE_FIXED_HEADER + 4 + hdr.textBytes + hdr.payloadBytes
    if INT64_MAX < stop then bytes
    else
      let (ok, trailer, reported) := trailerWrite (some hooks) text
      let written := truncate bytes stop ++ trailer
      if ok && 0 < reported then
        fillHeader hdr.quantBits hdr.reason (hdr.extFlags ||| hooks.extFlag) hdr.tokens hdr.hits
          hdr.ctxSize hdr.createdAt now hdr.payloadBytes ++ written.drop DS4_KVSTORE_FIXED_HEADER
      else written

/-- The hooks that a trailer is rewritten with: both functions are there, and there is something
    to write. -/
def rewriteHooks (hooks : Option TrailerHooks) (text : List UInt8) : Option TrailerHooks :=
  hooks.filter fun h =>
    h.write.isSome && h.serializedSize.isSome &&
      match trailerSerializedSize (some h) text with
      | none     => false
      | some est => est != 0

/-- `kv_cache_rewrite_trailer` -/
def rewriteTrailer (now : Nat) (name : Name) (text : List UInt8) (hooks : Option TrailerHooks)
    (dir : Dir) : Dir :=
  match rewriteHooks hooks text, dir.lookup name with
  | some h, some bytes => dir.insert name (withTrailer now h text bytes)
  | _, _               => dir

/-! ### The store -/

/-- `ds4_kvstore_tokens_copy_prefix` -/
def tokensCopyPrefix (src : List Int) (n : Int) : List Int := src.take n.toNat

/-- `ds4_kvstore_render_tokens_text` -/
def renderTokensText (engine : Engine) (tokens : List Int) : List UInt8 :=
  tokens.flatMap engine.tokenText

/-- An override that is not the empty string. -/
def textOverride (r : StoreRequest) : Option (List UInt8) :=
  r.cacheTextOverride.filter fun t => !t.isEmpty

/-- The text that the checkpoint is stored under. -/
def storeText (engine : Engine) (r : StoreRequest) : List UInt8 :=
  (textOverride r).getD (renderTokensText engine (tokensCopyPrefix r.tokens r.storeLen))

/-- The header of a new file. -/
def storeHeader (sh : Shape) (now : Nat) (engine : Engine) (s : Session) (r : StoreRequest) (est : Nat) :
    List UInt8 :=
  let hookFlag := if 0 < est then r.hooks.elim 0 TrailerHooks.extFlag else 0
  let extFlags := if (textOverride r).isSome then hookFlag ||| r.cacheTextExt else hookFlag
  fillHeader (UInt8.ofNat engine.quantBits.toNat) (reasonCode r.reason) extFlags
    (tokensCopyPrefix r.tokens r.storeLen).length 0 s.host.ctxSize now now (s.payloadBytes sh)

/-- The part of `ds4_kvstore_store_live_prefix_text` that writes a new file: to a temporary one,
    which is renamed, and then room is made. -/
def storeNew (sh : Shape) (env : Env) (engine : Engine) (kc : Store) (s : Session) (r : StoreRequest)
    (text : List UInt8) (est : Nat) (dir : Dir) : Bool × Dir :=
  match s.savePayload sh with
  | .error _    => (false, dir)
  | .ok payload =>
    let (written, trailer, trailerBytes) := trailerWrite r.hooks text
    if !written then (false, dir)
    else if !fileSizeFits kc text.length (s.payloadBytes sh) trailerBytes then (false, dir)
    else
      let sha := sha1BytesHex text
      let file := storeHeader sh env.now engine s r est ++ leBytes 4 text.length ++ text ++ payload ++
        trailer
      (true, evict env kc (some sha) (dir.insert (pathForSha sha) file))

/-- `ds4_kvstore_store_live_prefix_text` -/
def storeLivePrefixText (sh : Shape) (env : Env) (engine : Engine) (kc : Store) (s : Session)
    (r : StoreRequest) (dir : Dir) : Bool × Dir :=
  if !kc.enabled then (false, dir)
  else if r.storeLen < kc.opt.minTokens then (false, dir)
  else
    let storeTokens := tokensCopyPrefix r.tokens r.storeLen
    if engine.quantBits ≠ 2 ∧ engine.quantBits ≠ 4 then (false, dir)
    else
      let live := s.host.checkpoint
      if live.length ≠ storeTokens.length ∨ !storeTokens.isPrefixOf live then (false, dir)
      else if s.payloadBytes sh = 0 then (false, dir)
      else
        let text := storeText engine r
        if UINT32_MAX < text.length then (false, dir)
        else
          match trailerSerializedSize r.hooks text with
          | none     => (false, dir)
          | some est =>
            if !fileSizeFits kc text.length (s.payloadBytes sh) est then (false, dir)
            else
              let sha := sha1BytesHex text
              let name := pathForSha sha
              match existingCompatible kc name sha text engine.quantBits s.host.ctxSize dir with
              | (true, dir)  => (true, rewriteTrailer env.now name text r.hooks dir)
              | (false, dir) => storeNew sh env engine kc s r text est dir

variable {sh : Shape} {env : Env} {engine : Engine} {kc : Store} {s : Session} {r : StoreRequest}
  {dir dir' : Dir}

/-- The file name of the text. -/
def storeName (engine : Engine) (r : StoreRequest) : Name :=
  pathForSha (sha1BytesHex (storeText engine r))

/-- What a store has checked before it looks at the directory. -/
structure StoreReady (sh : Shape) (engine : Engine) (kc : Store) (s : Session) (r : StoreRequest)
    (est : Nat) : Prop where
  enabled : kc.enabled = true
  minTokens : kc.opt.minTokens ≤ r.storeLen
  quantBits : engine.quantBits = 2 ∨ engine.quantBits = 4
  live : s.host.checkpoint = tokensCopyPrefix r.tokens r.storeLen
  payloadBytes : s.payloadBytes sh ≠ 0
  text : (storeText engine r).length ≤ UINT32_MAX
  size : trailerSerializedSize r.hooks (storeText engine r) = some est
  fits : fileSizeFits kc (storeText engine r).length (s.payloadBytes sh) est = true

/-- The file that a store writes. -/
def storeFile (sh : Shape) (now : Nat) (engine : Engine) (s : Session) (r : StoreRequest) (est : Nat)
    (payload trailer : List UInt8) : List UInt8 :=
  storeHeader sh now engine s r est ++ leBytes 4 (storeText engine r).length ++ storeText engine r ++
    payload ++ trailer

/-- A store that failed: at most a file that was not compatible is gone. -/
def StoreFailed (name : Name) (dir dir' : Dir) : Prop := dir' = dir ∨ dir' = dir.erase name

/-- A store that kept the file that was there. -/
structure StoreKept (sh : Shape) (env : Env) (engine : Engine) (kc : Store) (s : Session)
    (r : StoreRequest) (dir dir' : Dir) (bytes : List UInt8) (e : Entry) : Prop where
  lookup : dir.lookup (storeName engine r) = some bytes
  entry : readEntryFile (storeName engine r) (sha1BytesHex (storeText engine r)) bytes = some e
  compatible : compatible kc (sha1BytesHex (storeText engine r)) (storeText engine r)
    engine.quantBits s.host.ctxSize e bytes = true
  dir_eq : dir' = rewriteTrailer env.now (storeName engine r) (storeText engine r) r.hooks dir

/-- A store that wrote a new file. -/
structure StoreNew (sh : Shape) (env : Env) (engine : Engine) (kc : Store) (s : Session)
    (r : StoreRequest) (est : Nat) (dir dir' : Dir) (payload : List UInt8) : Prop where
  save : s.savePayload sh = .ok payload
  trailer : (trailerWrite r.hooks (storeText engine r)).1 = true
  fits : fileSizeFits kc (storeText engine r).length (s.payloadBytes sh)
    (trailerWrite r.hooks (storeText engine r)).2.2 = true
  dir_eq : ∃ dir₁, (dir₁ = dir ∨ dir₁ = dir.erase (storeName engine r)) ∧
    dir' = evict env kc (some (sha1BytesHex (storeText engine r)))
      (dir₁.insert (storeName engine r) (storeFile sh env.now engine s r est payload
        (trailerWrite r.hooks (storeText engine r)).2.1))

/-- What `storeNew` does. -/
theorem storeNew_cases {est : Nat} {dir₁ : Dir} {ok : Bool}
    (h : storeNew sh env engine kc s r (storeText engine r) est dir₁ = (ok, dir'))
    (hdir : dir₁ = dir ∨ dir₁ = dir.erase (storeName engine r)) :
    ok = false ∧ StoreFailed (storeName engine r) dir dir' ∨
      ok = true ∧ ∃ payload, StoreNew sh env engine kc s r est dir dir' payload := by
  unfold storeNew at h
  split at h
  · cases h
    exact Or.inl ⟨rfl, hdir⟩
  · rename_i payload hsave
    dsimp only at h
    split at h
    · cases h
      exact Or.inl ⟨rfl, hdir⟩
    · rename_i hwritten
      split at h
      · cases h
        exact Or.inl ⟨rfl, hdir⟩
      · rename_i hfits
        cases h
        exact Or.inr ⟨rfl, payload, hsave, by simpa using hwritten, by simpa using hfits,
          dir₁, hdir, rfl⟩

/-- What `existingCompatible` does. -/
theorem existingCompatible_cases {name : Name} {sha text : List UInt8} {q : Int} {ctx : Nat} {ok : Bool}
    (h : existingCompatible kc name sha text q ctx dir = (ok, dir')) :
    ok = false ∧ (dir' = dir ∨ dir' = dir.erase name) ∨
      ok = true ∧ dir' = dir ∧ ∃ bytes e, dir.lookup name = some bytes ∧
        readEntryFile name sha bytes = some e ∧ compatible kc sha text q ctx e bytes = true := by
  unfold existingCompatible at h
  split at h
  · cases h
    exact Or.inl ⟨rfl, Or.inl rfl⟩
  · rename_i bytes hbytes
    split at h
    · cases h
      exact Or.inl ⟨rfl, Or.inl rfl⟩
    · rename_i e he
      split at h
      · rename_i hc
        cases h
        exact Or.inr ⟨rfl, rfl, bytes, e, hbytes, he, hc⟩
      · cases h
        exact Or.inl ⟨rfl, Or.inr rfl⟩

/-- **What a store does.** It fails, or keeps the file that is there, or writes a new one. -/
theorem store_cases {ok : Bool} (h : storeLivePrefixText sh env engine kc s r dir = (ok, dir')) :
    ok = false ∧ StoreFailed (storeName engine r) dir dir' ∨
      ok = true ∧ ∃ est, StoreReady sh engine kc s r est ∧
        ((∃ bytes e, StoreKept sh env engine kc s r dir dir' bytes e) ∨
          ∃ payload, StoreNew sh env engine kc s r est dir dir' payload) := by
  have hfail : ∀ {o : Bool} {d : Dir}, (false, dir) = (o, d) →
      o = false ∧ StoreFailed (storeName engine r) dir d := fun hd => by
    cases hd
    exact ⟨rfl, Or.inl rfl⟩
  unfold storeLivePrefixText at h
  split at h
  · exact Or.inl (hfail h)
  · rename_i hen
    split at h
    · exact Or.inl (hfail h)
    · rename_i hmin
      dsimp only at h
      split at h
      · exact Or.inl (hfail h)
      · rename_i hquant
        split at h
        · exact Or.inl (hfail h)
        · rename_i hlive
          split at h
          · exact Or.inl (hfail h)
          · rename_i hbytes
            split at h
            · exact Or.inl (hfail h)
            · rename_i htext
              split at h
              · exact Or.inl (hfail h)
              · rename_i est hest
                split at h
                · exact Or.inl (hfail h)
                · rename_i hfits
                  have hready : StoreReady sh engine kc s r est := by
                    refine ⟨by simpa using hen, Int.not_lt.mp hmin, ?_, ?_, hbytes,
                      Nat.not_lt.mp htext, hest, by simpa using hfits⟩
                    · by_cases h2 : engine.quantBits = 2
                      · exact Or.inl h2
                      · exact Or.inr (not_not.mp fun h4 => hquant ⟨h2, h4⟩)
                    · push Not at hlive
                      have hpre : tokensCopyPrefix r.tokens r.storeLen <+: s.host.checkpoint := by
                        simpa using hlive.2
                      exact (hpre.eq_of_length hlive.1.symm).symm
                  split at h
                  · rename_i dir₁ hex
                    cases h
                    obtain ⟨h0, -⟩ | ⟨-, rfl, bytes, e, hlook, he, hc⟩ := existingCompatible_cases hex
                    · cases h0
                    · exact Or.inr ⟨rfl, est, hready, Or.inl ⟨bytes, e, hlook, he, hc, rfl⟩⟩
                  · rename_i dir₁ hex
                    obtain ⟨-, hdir⟩ | ⟨h1, -⟩ := existingCompatible_cases hex
                    · obtain hf | ⟨hok, hnew⟩ := storeNew_cases h hdir
                      · exact Or.inl hf
                      · exact Or.inr ⟨hok, est, hready, Or.inr hnew⟩
                    · cases h1

/-- A store that is ready goes on with the file that is there. -/
theorem storeLivePrefixText_of_ready {est : Nat} (h : StoreReady sh engine kc s r est) :
    storeLivePrefixText sh env engine kc s r dir =
      match existingCompatible kc (storeName engine r) (sha1BytesHex (storeText engine r))
        (storeText engine r) engine.quantBits s.host.ctxSize dir with
      | (true, dir)  => (true, rewriteTrailer env.now (storeName engine r) (storeText engine r) r.hooks dir)
      | (false, dir) => storeNew sh env engine kc s r (storeText engine r) est dir := by
  have hquant : ¬ (engine.quantBits ≠ 2 ∧ engine.quantBits ≠ 4) := fun hq =>
    h.quantBits.elim hq.1 hq.2
  have hlive : ¬ (s.host.checkpoint.length ≠ (tokensCopyPrefix r.tokens r.storeLen).length ∨
      (!(tokensCopyPrefix r.tokens r.storeLen).isPrefixOf s.host.checkpoint) = true) := by
    rw [h.live]
    simp
  unfold storeLivePrefixText
  rw [h.enabled, if_neg (by decide), if_neg (Int.not_lt.mpr h.minTokens)]
  dsimp only
  rw [if_neg hquant, if_neg hlive, if_neg h.payloadBytes, if_neg (Nat.not_lt.mpr h.text), h.size]
  dsimp only
  rw [h.fits, if_neg (by decide)]
  rfl

end DS4.KvStore
