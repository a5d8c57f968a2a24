import DS4.KvStore.Budget

namespace DS4.KvStore

/-!
# The KV cache — a store, and a load after it

A store that finds its text already there looks at the header and the text of the file, but not at
its payload, nor at how many tokens it has; a load then gets what is there.  And of several files
whose texts the prompt starts with, the load takes the longest, which need not have the most tokens.

* `Setup`, `LoadsAs` — what makes a payload loadable here.
* `Want` — a text, a prompt that starts with it, and how many tokens are wanted.
* `Serves`, `Served` — a file, and a directory, from which so many tokens are loaded.
* `load_of_served` — the load; `served_of_store`, `served_step` — what stores and loads keep.
* `load_after_store` — a load after a store; `not_load_after_store_poisoned` — a payload that is not
  one.
-/

open DS4.Lib DS4.Checkpoint

variable {sh : Shape} {cg : CtxGrow} {env : Env} {dir dir' : Dir} {nm : Name}

/-! ### Payloads -/

/-- The context and the capacities that engine and context size give a session. -/
structure Setup where
  ctxSize : Nat
  prefillCap : Nat
  rawWindow : Nat
  rawCap : Nat

/-- The setup of a session. -/
def setupOf (sh : Shape) (s : Session) : Setup where
  ctxSize := s.host.ctxSize
  prefillCap := s.host.prefillCap
  rawWindow := s.rawWindow sh
  rawCap := s.rawCap sh

/-- Every session with this setup takes the payload, and has these tokens then. -/
def LoadsAs (sh : Shape) (cg : CtxGrow) (su : Setup) (payload : List UInt8) (tokens : List Int) : Prop :=
  ∀ b : Session, b.WellFormed sh cg → setupOf sh b = su → ∀ fp : Source,
    payload <+: fp.data.drop fp.pos → fp.remaining = payload.length →
      ∃ fp' b', b.loadPayload sh cg fp = (.ok (), fp', b') ∧ b'.host.checkpoint = tokens

theorem rawLiveRows_le {a : Session} (h : a.Valid sh cg) : a.rawLiveRows sh ≤ a.rawCap sh := by
  cases a with
  | graph g =>
    have hg : g.Valid sh cg := h
    exact hg.toWellFormed.rawLive_le
  | cpu c =>
    show c.sessionCpuRawLiveRows sh ≤ sh.defaultRawCap c.ctxSize
    unfold CpuSession.sessionCpuRawLiveRows
    split
    · dsimp only
      split <;> omega
    · exact Nat.zero_le _

/-- **What is saved** is loaded by a session of the same setup. -/
theorem loadsAs_savePayload {a : Session} (h : a.Valid sh cg) {payload : List UInt8}
    (hsave : a.savePayload sh = .ok payload) :
    LoadsAs sh cg (setupOf sh a) payload a.host.checkpoint ∧ payload.length = a.payloadBytes sh := by
  have hs := h.saved
  rw [hs.save] at hsave
  cases hsave
  refine ⟨fun b hb hsu fp hnext hdecl => ?_, hs.bytes.symm⟩
  have hadmits : b.Admits sh a := by
    have h1 : b.host.ctxSize = a.host.ctxSize := congrArg Setup.ctxSize hsu
    have h2 : b.host.prefillCap = a.host.prefillCap := congrArg Setup.prefillCap hsu
    have h3 : b.rawWindow sh = a.rawWindow sh := congrArg Setup.rawWindow hsu
    have h4 : b.rawCap sh = a.rawCap sh := congrArg Setup.rawCap hsu
    exact ⟨Nat.le_of_eq h1.symm, h2.symm, h3.symm, h4 ▸ rawLiveRows_le h⟩
  obtain ⟨b', hload, -, hsame⟩ := hs.load hb hadmits hnext hdecl
  refine ⟨_, b', hload, ?_⟩
  have htok := hsame.tokens
  cases b' <;> cases a <;> exact htok

/-- The digest of an entry under the name of a text. -/
theorem sha_of_entryOf {text bytes : List UInt8} {e : Entry}
    (h : entryOf ⟨pathForSha (sha1BytesHex text), bytes⟩ = some e) : e.sha = sha1BytesHex text := by
  have hsha := (entryOf_eq_some h).2.1
  dsimp only at hsha
  rw [shaHexName_pathForSha] at hsha
  exact (Option.some.inj hsha).symm

/-! ### What is wanted -/

/-- A text that was stored, a prompt that starts with it, and how many tokens are wanted, in an
    engine, a cache and a setup. -/
structure Want where
  engine : Engine
  kc : Store
  setup : Setup
  text : List UInt8
  prompt : List UInt8
  count : Nat

namespace Want

variable (w : Want)

/-- The name of the file of the text. -/
def name : Name := pathForSha (sha1BytesHex w.text)

/-- An entry that a load prefers to a shorter one than the text. -/
structure Candidate (e : Entry) : Prop
    extends Selects w.kc w.prompt w.engine.quantBits w.setup.ctxSize e where
  le : w.text.length ≤ e.textBytes

/-- A file from which at least so many tokens are loaded. -/
structure Serves (sh : Shape) (cg : CtxGrow) (e : Entry) (bytes : List UInt8) : Prop where
  textMatches : TextMatches w.prompt e.sha bytes e.toHeader
  loads : ∃ tokens, LoadsAs sh cg w.setup (payloadOf bytes e.toHeader) tokens ∧
    (tokens.length : Int) = i32 e.tokens ∧ w.count ≤ tokens.length

/-- The file of the text, as a load wants it. -/
structure There (bytes : List UInt8) (e : Entry) : Prop where
  entry : entryOf ⟨w.name, bytes⟩ = some e
  eligible : eligible w.kc w.prompt.length w.engine.quantBits w.setup.ctxSize e = true
  text : textOf bytes e.textBytes = w.text
  length : e.textBytes = w.text.length

/-- The file of the text is there, and every file that a load can choose serves. -/
structure Served (sh : Shape) (cg : CtxGrow) (dir : Dir) : Prop where
  there : ∃ bytes e, dir.lookup w.name = some bytes ∧ w.There bytes e
  serves : ∀ name bytes e, dir.lookup name = some bytes → entryOf ⟨name, bytes⟩ = some e →
    w.Candidate e → w.Serves sh cg e bytes

end Want

variable {w : Want}

/-! ### The load -/

theorem payloadOf_prefix {bytes : List UInt8} {e : Header} :
    payloadOf bytes e <+: (payloadSource bytes e).data.drop (payloadSource bytes e).pos :=
  List.take_prefix _ _

theorem payloadOf_length {bytes : List UInt8} {e : Header} (h : Whole e bytes) :
    (payloadOf bytes e).length = e.payloadBytes := by
  have hsize := h.size
  rw [payloadOf, List.length_take, List.length_drop]
  omega

/-- **The load** from a directory that serves the want. -/
theorem load_of_served (h : w.Served sh cg dir) (hprompt : w.text <+: w.prompt)
    (hen : w.kc.enabled = true) (hquant : w.engine.quantBits = 2 ∨ w.engine.quantBits = 4)
    (env : Env) {b : Session} (hb : b.WellFormed sh cg) (hsu : setupOf sh b = w.setup) :
    ∃ o, tryLoadText sh cg env w.engine w.kc w.prompt b dir dir = some o ∧ (w.count : Int) ≤ o.loaded := by
  obtain ⟨bytes, e, hlook, hthere⟩ := h.there
  have hctx : b.host.ctxSize = w.setup.ctxSize := congrArg Setup.ctxSize hsu
  have hmem : e ∈ refresh env dir := (mem_refresh).mpr ⟨⟨w.name, bytes⟩, hlook, hthere.entry⟩
  -- the file of the text is selected, so one at least as long is chosen
  have hsel : Selects w.kc w.prompt w.engine.quantBits w.setup.ctxSize e := by
    refine ⟨hthere.eligible, ?_⟩
    rw [hthere.length, ← List.prefix_iff_eq_take.mp hprompt]
    exact (sha_of_entryOf hthere.entry).symm
  obtain ⟨c, hc, hle⟩ := exists_findTextPrefix hmem hsel
  obtain ⟨hcmem, hcsel⟩ := findTextPrefix_some hc
  obtain ⟨f, hf, hfe⟩ := (mem_refresh).mp hcmem
  have hname := (entryOf_eq_some hfe).1
  have hcwhole := (entryOf_eq_some hfe).2.2.2
  have hserves := h.serves f.1 f.2 c hf hfe ⟨hcsel, by rw [← hthere.length]; exact hle⟩
  obtain ⟨tokens, hloads, hlen, hcount⟩ := hserves.loads
  obtain ⟨fp', b', hload, htok⟩ := hloads b hb hsu (payloadSource f.2 c.toHeader) payloadOf_prefix
    (payloadOf_length hcwhole).symm
  have hnot : ¬ (w.engine.quantBits ≠ 2 ∧ w.engine.quantBits ≠ 4) := fun hq => hquant.elim hq.1 hq.2
  have hfinal : (b'.host.checkpoint.length : Int) = i32 c.tokens := by rw [htok, hlen]
  refine ⟨finishHit env w.engine w.kc c.name c.toHeader w.prompt b' dir, ?_, ?_⟩
  · unfold tryLoadText
    rw [hen, if_neg (by decide), if_neg hnot, hctx, hc]
    dsimp only
    unfold loadFile
    rw [hname, hf]
    dsimp only
    rw [(checkText_eq_some_iff).mpr hserves.textMatches]
    dsimp only
    rw [hload]
    dsimp only
    rw [if_pos hfinal]
  · show (w.count : Int) ≤ i32 c.tokens
    omega

/-! ### What keeps a directory served -/

/-- Files that are removed. -/
theorem served_of_sub (dir : Dir) (h : w.Served sh cg dir) (hthere : (dir'.lookup w.name).isSome = true)
    (hsub : ∀ name bytes, dir'.lookup name = some bytes → dir.lookup name = some bytes) :
    w.Served sh cg dir' where
  there := by
    obtain ⟨bytes, e, hlook, he⟩ := h.there
    obtain ⟨bytes', hlook'⟩ := Option.isSome_iff_exists.mp hthere
    have hsame := hsub w.name bytes' hlook'
    rw [hlook] at hsame
    cases hsame
    exact ⟨bytes, e, hlook', he⟩
  serves name bytes e hlook := h.serves name bytes e (hsub name bytes hlook)

theorem Rewritten.textOf {e e' : Header} {bytes bytes' : List UInt8} (h : Rewritten e bytes e' bytes') :
    textOf bytes' e'.textBytes = textOf bytes e.textBytes := by
  have hb := congrArg (List.take e.textBytes) h.body
  rw [List.take_take, List.take_take, Nat.min_eq_left (Nat.le_add_right _ _)] at hb
  rw [h.textBytes]
  exact hb

theorem Rewritten.payloadOf {e e' : Header} {bytes bytes' : List UInt8}
    (h : Rewritten e bytes e' bytes') : payloadOf bytes' e' = payloadOf bytes e := by
  have hb := congrArg (List.drop e.textBytes) h.body
  rw [List.drop_take, List.drop_take, List.drop_drop, List.drop_drop, Nat.add_sub_cancel_left] at hb
  rw [KvStore.payloadOf, KvStore.payloadOf, h.textBytes, h.payloadBytes]
  exact hb

/-- The entries of a file before and after it is written over. -/
theorem Rewritten.entry {e e' : Header} {bytes bytes' : List UInt8} (h : Rewritten e bytes e' bytes')
    (hw : Whole e bytes) {x : Entry} (hx : entryOf ⟨nm, bytes'⟩ = some x) :
    x.toHeader = e' ∧ ∃ y, entryOf ⟨nm, bytes⟩ = some y ∧ y.toHeader = e ∧ y.sha = x.sha := by
  obtain ⟨hname, hsha, hsize, hxw⟩ := entryOf_eq_some hx
  refine ⟨hxw.eq.trans h.whole.eq.symm, { e with sha := x.sha, name := nm, fileSize := bytes.length },
    ?_, rfl, rfl⟩
  unfold entryOf
  rw [hsha]
  exact (readEntryFile_eq_some_iff).mpr ⟨hw, rfl, rfl, rfl⟩

/-- A header that says the same is as eligible. -/
theorem eligible_congr {kc : Store} {n ctx : Nat} {q : Int} {x y : Entry} (htok : x.tokens = y.tokens)
    (hquant : x.quantBits = y.quantBits) (hctx : x.ctxSize = y.ctxSize)
    (htext : x.textBytes = y.textBytes) : eligible kc n q ctx x = eligible kc n q ctx y := by
  unfold eligible
  rw [htok, hquant, hctx, htext]

/-- **A file that is written over** serves as before. -/
theorem served_of_rewritten (h : w.Served sh cg dir) {e e' : Header} {bytes bytes' : List UInt8}
    (hlook : dir.lookup nm = some bytes) (hw : Whole e bytes) (hr : Rewritten e bytes e' bytes') :
    w.Served sh cg (dir.insert nm bytes') where
  there := by
    obtain ⟨b, x, hb, hx⟩ := h.there
    by_cases hn : w.name = nm
    -- the file of the text itself
    · subst hn
      rw [hlook] at hb
      cases hb
      obtain ⟨hxname, hxsha, -, hxw⟩ := entryOf_eq_some hx.entry
      have hxe : x.toHeader = e := hxw.eq.trans hw.eq.symm
      refine ⟨bytes', { e' with sha := x.sha, name := w.name, fileSize := bytes'.length },
        AList.lookup_insert _, ?_, ?_, ?_, ?_⟩
      · unfold entryOf
        rw [hxsha]
        exact (readEntryFile_eq_some_iff).mpr ⟨hr.whole, rfl, rfl, rfl⟩
      · rw [← hx.eligible]
        refine eligible_congr ?_ ?_ ?_ ?_ <;> rw [hxe]
        · exact hr.tokens
        · exact hr.quantBits
        · exact hr.ctxSize
        · exact hr.textBytes
      · have htext := hx.text
        rw [hxe] at htext
        exact (hr.textOf).trans htext
      · have hlen := hx.length
        rw [hxe] at hlen
        exact hr.textBytes.trans hlen
    · exact ⟨b, x, (AList.lookup_insert_ne hn).trans hb, hx⟩
  serves := by
    intro name b x hb hx hc
    by_cases hn : name = nm
    · subst hn
      rw [AList.lookup_insert] at hb
      cases hb
      obtain ⟨hxe, y, hy, hye, hsha⟩ := hr.entry hw hx
      have htext : x.textBytes = y.textBytes := by rw [hxe, hye, hr.textBytes]
      have htok : x.tokens = y.tokens := by rw [hxe, hye, hr.tokens]
      have hcand : w.Candidate y := by
        refine ⟨⟨?_, ?_⟩, ?_⟩
        · rw [← hc.eligible]
          refine (eligible_congr htok ?_ ?_ htext).symm <;> rw [hxe, hye]
          · exact hr.quantBits
          · exact hr.ctxSize
        · rw [← htext, hsha]
          exact hc.sha
        · rw [← htext]
          exact hc.le
      have hs := h.serves name bytes y hlook hy hcand
      obtain ⟨tokens, hloads, hlen, hcount⟩ := hs.loads
      have hm := hs.textMatches
      rw [hye] at hm hloads
      have hbody : textOf bytes' e'.textBytes = textOf bytes e.textBytes := hr.textOf
      refine ⟨?_, tokens, ?_, by rw [htok]; exact hlen, hcount⟩
      · rw [hxe]
        exact
          { readable := hr.whole.toReadable
            length := by rw [hbody, hr.textBytes]; exact hm.length
            digest := by rw [hbody, ← hsha]; exact hm.digest
            initial := by rw [hbody, hr.textBytes]; exact hm.initial
            le := by rw [hr.textBytes]; exact hm.le }
      · rw [hxe, hr.payloadOf]
        exact hloads
    · rw [AList.lookup_insert_ne hn] at hb
      exact h.serves name b x hb hx hc

/-- **A trailer** that is written again. -/
theorem served_rewriteTrailer (h : w.Served sh cg dir) (now : Nat) (text : List UInt8)
    (hooks : Option TrailerHooks) {bytes : List UInt8} {e : Header}
    (hlook : dir.lookup nm = some bytes) (hw : Whole e bytes) :
    w.Served sh cg (rewriteTrailer now nm text hooks dir) := by
  unfold rewriteTrailer
  split
  · rename_i hk b _ hb
    rw [hlook] at hb
    cases hb
    obtain ⟨e', hr⟩ := (rewritten_withTrailer hw now hk text).1
    exact served_of_rewritten h hlook hw hr
  · exact h

/-! ### A new file -/

/-- A new file serves, if its text is what the prompt starts with, and its tokens are enough. -/
theorem serves_storeFile {kc : Store} {s : LiveSession sh cg} {r : StoreRequest} {est : Nat}
    {payload : List UInt8} (hready : StoreReady sh w.engine kc s.session r est)
    (hsave : s.session.savePayload sh = .ok payload) (hsu : setupOf sh s.session = w.setup)
    {now : Nat} {trailer : List UInt8} {x : Entry}
    (hx : entryOf ⟨storeName w.engine r,
      storeFile sh now w.engine s.session r est payload trailer⟩ = some x) :
    x.tokens = (tokensCopyPrefix r.tokens r.storeLen).length ∧
      i32 x.tokens = ((tokensCopyPrefix r.tokens r.storeLen).length : Int) ∧
      x.textBytes = (storeText w.engine r).length ∧ x.ctxSize = s.session.host.ctxSize ∧
      x.quantBits = UInt8.ofNat w.engine.quantBits.toNat ∧
      textOf (storeFile sh now w.engine s.session r est payload trailer) x.textBytes =
        storeText w.engine r ∧
      ((storeText w.engine r).length ≤ w.prompt.length →
        storeText w.engine r = w.prompt.take (storeText w.engine r).length →
        w.count ≤ (tokensCopyPrefix r.tokens r.storeLen).length →
        w.Serves sh cg x (storeFile sh now w.engine s.session r est payload trailer)) := by
  have hv := s.valid (checkpointValid_of_payloadBytes hready.payloadBytes)
  obtain ⟨hloads, hplen⟩ := loadsAs_savePayload hv hsave
  obtain ⟨hlen, hctx⟩ := valid_bounds hv
  have hsha := sha_of_entryOf hx
  obtain ⟨-, -, -, hxw⟩ := entryOf_eq_some hx
  -- a header without tokens is not read
  have hne : tokensCopyPrefix r.tokens r.storeLen ≠ [] := by
    intro h0
    refine hxw.tokens ?_
    have htok : x.tokens = leValue (leBytes 4 (tokensCopyPrefix r.tokens r.storeLen).length) := by
      rw [hxw.eq]
      rfl
    rw [htok, h0]
    rfl
  obtain ⟨f, hw⟩ := whole_storeFile hready hv hne now hplen trailer
  have hxe : x.toHeader = storedHeader sh now w.engine s.session r f := hxw.eq.trans hw.eq.symm
  have htok : x.tokens = (tokensCopyPrefix r.tokens r.storeLen).length := by
    rw [hxe]
    rfl
  have htb : x.textBytes = (storeText w.engine r).length := by
    rw [hxe]
    rfl
  have hi32 : i32 x.tokens = ((tokensCopyPrefix r.tokens r.storeLen).length : Int) := by
    rw [hready.live] at hlen
    rw [htok, i32, if_pos (by omega)]
  have htext : textOf (storeFile sh now w.engine s.session r est payload trailer) x.textBytes =
      storeText w.engine r := by
    rw [htb]
    exact textOf_storeFile ..
  refine ⟨htok, hi32, htb, by rw [hxe]; rfl, by rw [hxe]; rfl, htext, fun hle hinit hcount => ?_⟩
  refine ⟨⟨hxw.toReadable, by rw [htext, htb], ?_, ?_, by rw [htb]; exact hle⟩,
    s.session.host.checkpoint, ?_, ?_, ?_⟩
  · rw [htext]
    exact hsha.symm
  · rw [htext, htb]
    exact hinit.symm
  · rw [payloadOf_storeFile htb (by rw [hxe]; exact hplen.symm), ← hsu]
    exact hloads
  · rw [hready.live, hi32]
  · rw [hready.live]
    exact hcount

/-- What `compatible` says. -/
theorem of_compatible {kc : Store} {text bytes : List UInt8} {q : Int} {ctx : Nat} {e : Entry}
    (hw : Whole e.toHeader bytes) (h : compatible kc (sha1BytesHex text) text q ctx e bytes = true) :
    (!kc.rejectDifferentQuant || e.quantBits == UInt8.ofNat q.toNat) = true ∧ e.ctxSize ≤ ctx ∧
      e.textBytes = text.length ∧ textOf bytes e.textBytes = text := by
  simp only [compatible, Bool.and_eq_true, decide_eq_true_eq] at h
  obtain ⟨⟨hquant, hctx⟩, hmatch⟩ := h
  unfold fileTextMatches at hmatch
  rw [(readHeader_eq_some_iff).mpr hw.toReadable] at hmatch
  dsimp only at hmatch
  split_ifs at hmatch with h1 h2 h3
  simp only [Bool.and_eq_true, beq_iff_eq] at hmatch
  exact ⟨hquant, hctx, not_not.mp h2, hmatch.2⟩

/-! ### The first store -/

namespace Want

/-- The directory before the store does not spoil a load: a file that the store keeps is a checkpoint
    with enough tokens, and so is every other file that the prompt selects before the text. -/
structure Reloadable (w : Want) (sh : Shape) (cg : CtxGrow) (dir : Dir) : Prop where
  pos : 0 < w.count
  minTokens : w.kc.opt.minTokens ≤ w.count
  kept : ∀ bytes e, dir.lookup w.name = some bytes →
    readEntryFile w.name (sha1BytesHex w.text) bytes = some e →
    compatible w.kc (sha1BytesHex w.text) w.text w.engine.quantBits w.setup.ctxSize e bytes = true →
    w.kc.opt.minTokens ≤ i32 e.tokens ∧
      ∃ tokens, LoadsAs sh cg w.setup (payloadOf bytes e.toHeader) tokens ∧
        (tokens.length : Int) = i32 e.tokens ∧ w.count ≤ tokens.length
  others : ∀ name bytes e, name ≠ w.name → dir.lookup name = some bytes →
    entryOf ⟨name, bytes⟩ = some e → w.Candidate e → w.Serves sh cg e bytes

end Want

/-- What is wanted after a store: at least the tokens that it stored. -/
def wantOf (sh : Shape) (engine : Engine) (kc : Store) (s : Session) (r : StoreRequest)
    (prompt : List UInt8) : Want where
  engine := engine
  kc := kc
  setup := setupOf sh s
  text := storeText engine r
  prompt := prompt
  count := (tokensCopyPrefix r.tokens r.storeLen).length

theorem eligible_iff {kc : Store} {n ctx : Nat} {q : Int} {e : Entry} :
    eligible kc n q ctx e = true ↔ e.textBytes ≤ n ∧ kc.opt.minTokens ≤ i32 e.tokens ∧
      e.ctxSize ≤ ctx ∧ (!kc.rejectDifferentQuant || e.quantBits == UInt8.ofNat q.toNat) = true := by
  simp only [eligible, Bool.and_eq_true, decide_eq_true_eq]
  tauto

/-- **After a store** that returned true the directory serves, if it did not spoil it before. -/
theorem served_of_store {engine : Engine} {kc : Store} {s : LiveSession sh cg} {r : StoreRequest}
    {prompt : List UInt8} (hstore : storeLivePrefixText sh env engine kc s.session r dir = (true, dir'))
    (hprompt : storeText engine r <+: prompt)
    (hcond : (wantOf sh engine kc s.session r prompt).Reloadable sh cg dir)
    (hthere : (dir'.lookup (storeName engine r)).isSome = true) :
    (wantOf sh engine kc s.session r prompt).Served sh cg dir' := by
  have hle := hprompt.length_le
  have hinit := List.prefix_iff_eq_take.mp hprompt
  obtain ⟨h0, -⟩ | ⟨-, est, hready, ⟨bytes, e, hkept⟩ | ⟨payload, hnew⟩⟩ := store_cases hstore
  · cases h0
  -- the file that is there is kept
  · obtain ⟨hw, hsha, hname, hsize⟩ := (readEntryFile_eq_some_iff).mp hkept.entry
    obtain ⟨hquant, hctx, hlen, htext⟩ := of_compatible hw hkept.compatible
    obtain ⟨hmin, htokens⟩ := hcond.kept bytes e hkept.lookup hkept.entry hkept.compatible
    have hentry : entryOf ⟨storeName engine r, bytes⟩ = some e := by
      unfold entryOf
      rw [show shaHexName (storeName engine r) = _ from shaHexName_pathForSha _]
      exact hkept.entry
    rw [hkept.dir_eq]
    refine served_rewriteTrailer (w := wantOf sh engine kc s.session r prompt) ⟨⟨bytes, e,
      hkept.lookup, hentry, (eligible_iff).mpr ⟨by rw [hlen]; exact hle, hmin, hctx, hquant⟩, htext,
      hlen⟩, ?_⟩ _ _ _ hkept.lookup hw
    intro name b x hb hx hc
    by_cases hn : name = storeName engine r
    · subst hn
      rw [hkept.lookup] at hb
      cases hb
      rw [hentry] at hx
      cases hx
      refine ⟨⟨hw.toReadable, by rw [htext, hlen], by rw [htext]; exact hsha.symm, ?_,
        by rw [hlen]; exact hle⟩, htokens⟩
      rw [htext, hlen]
      exact hinit.symm
    · exact hcond.others name b x hn hb hx hc
  -- a new file is written
  · obtain ⟨dir₁, hdir₁, hdir'⟩ := hnew.dir_eq
    have hv := s.valid (checkpointValid_of_payloadBytes hready.payloadBytes)
    have hplen := (loadsAs_savePayload hv hnew.save).2
    have hne : tokensCopyPrefix r.tokens r.storeLen ≠ [] := by
      intro h0
      have hpos := hcond.pos
      have hzero : (wantOf sh engine kc s.session r prompt).count = 0 := congrArg List.length h0
      omega
    obtain ⟨f, hw⟩ := whole_storeFile hready hv hne env.now hplen
      (trailerWrite r.hooks (storeText engine r)).2.1
    have hentry : ∃ x, entryOf ⟨storeName engine r, storeFile sh env.now engine s.session r est payload
        (trailerWrite r.hooks (storeText engine r)).2.1⟩ = some x := by
      unfold entryOf
      rw [show shaHexName (storeName engine r) = _ from shaHexName_pathForSha _]
      exact ⟨{ storedHeader sh env.now engine s.session r f with
        sha := sha1BytesHex (storeText engine r), name := storeName engine r, fileSize := _ },
        (readEntryFile_eq_some_iff).mpr ⟨hw, rfl, rfl, rfl⟩⟩
    obtain ⟨x, hx⟩ := hentry
    obtain ⟨-, hi32, htb, hxctx, hxq, htext, hserves⟩ := @serves_storeFile sh cg
      (wantOf sh engine kc s.session r prompt) kc s r est payload hready hnew.save rfl env.now _ x hx
    rw [hdir'] at hthere ⊢
    refine served_of_sub (dir₁.insert (storeName engine r) _) ?_ hthere
      fun name bytes h => lookup_of_evict h
    refine ⟨⟨_, x, AList.lookup_insert _, hx, (eligible_iff).mpr ⟨by rw [htb]; exact hle, ?_, ?_, ?_⟩,
      htext, htb⟩, ?_⟩
    · rw [hi32]
      exact hcond.minTokens
    · rw [hxctx]
      exact Nat.le_refl _
    · rw [hxq, Bool.or_eq_true, beq_iff_eq]
      exact Or.inr rfl
    · intro name b y hb hy hc
      by_cases hn : name = storeName engine r
      · subst hn
        rw [AList.lookup_insert] at hb
        cases hb
        rw [hx] at hy
        cases hy
        exact hserves hle hinit (Nat.le_refl _)
      · rw [AList.lookup_insert_ne hn] at hb
        refine hcond.others name b y hn ?_ hy hc
        obtain rfl | rfl := hdir₁
        · exact hb
        · rwa [AList.lookup_erase_ne hn] at hb

/-! ### Between the store and the load -/

namespace Want

/-- The text of another store does not get in the way: it has another digest than the text unless it is
    the text, and where the prompt selects it before the text, it is what the prompt starts with and
    has tokens enough. -/
structure OtherText (w : Want) (r : StoreRequest) : Prop where
  collision : sha1BytesHex (storeText w.engine r) = sha1BytesHex w.text → storeText w.engine r = w.text
  selected : w.text.length ≤ (storeText w.engine r).length →
    (storeText w.engine r).length ≤ w.prompt.length →
    sha1BytesHex (w.prompt.take (storeText w.engine r).length) = sha1BytesHex (storeText w.engine r) →
    w.kc.opt.minTokens ≤ ((tokensCopyPrefix r.tokens r.storeLen).length : Int) →
    storeText w.engine r = w.prompt.take (storeText w.engine r).length ∧
      w.count ≤ (tokensCopyPrefix r.tokens r.storeLen).length

/-- The cache has the options of the want, and the directory serves it. -/
structure Holds (w : Want) (sh : Shape) (cg : CtxGrow) (st : State) : Prop where
  enabled : st.kc.enabled = true
  opt : st.kc.opt = w.kc.opt
  reject : st.kc.rejectDifferentQuant = w.kc.rejectDifferentQuant
  served : w.Served sh cg st.dir

/-- The operations between: in the same engine and setup, with the same options, and the file of the
    text is not evicted. -/
def Between (w : Want) (st : State) (op : Op sh cg) : Prop :=
  ((step st op).dir.lookup w.name).isSome = true ∧
    match op with
    | .openCache _ _ reject opt => opt = w.kc.opt ∧ reject = w.kc.rejectDifferentQuant
    | .store _ engine s r => engine = w.engine ∧ setupOf sh s.session = w.setup ∧ w.OtherText r
    | .load .. => True

end Want

theorem eligible_options {kc kc' : Store} (hopt : kc.opt = kc'.opt)
    (hreject : kc.rejectDifferentQuant = kc'.rejectDifferentQuant) (n ctx : Nat) (q : Int) (e : Entry) :
    eligible kc n q ctx e = eligible kc' n q ctx e := by
  unfold eligible
  rw [hopt, hreject]

/-- Names are the same only for the same digest. -/
theorem sha_eq_of_name_eq {a b : List UInt8}
    (h : pathForSha (sha1BytesHex a) = pathForSha (sha1BytesHex b)) :
    sha1BytesHex a = sha1BytesHex b := by
  have hs := congrArg shaHexName h
  rw [shaHexName_pathForSha, shaHexName_pathForSha] at hs
  exact Option.some.inj hs

/-- A file of the text that is there is compatible with the text. -/
theorem existingCompatible_of_there {kc : Store} (hreject : kc.rejectDifferentQuant =
    w.kc.rejectDifferentQuant) {bytes : List UInt8} {e : Entry} (hlook : dir.lookup w.name = some bytes)
    (h : w.There bytes e) (hmax : w.text.length ≤ UINT32_MAX) :
    existingCompatible kc w.name (sha1BytesHex w.text) w.text w.engine.quantBits w.setup.ctxSize dir =
      (true, dir) := by
  obtain ⟨hname, -, hsize, hw⟩ := entryOf_eq_some h.entry
  obtain ⟨-, -, hctx, hquant⟩ := (eligible_iff).mp h.eligible
  have hentry : readEntryFile w.name (sha1BytesHex w.text) bytes = some e :=
    (readEntryFile_eq_some_iff).mpr ⟨hw, sha_of_entryOf h.entry, hname, hsize⟩
  have hc := @compatible_of_text kc e w.text bytes w.engine.quantBits w.setup.ctxSize hw.toReadable
    h.text h.length hmax (by rw [hreject]; exact hquant) hctx
  unfold existingCompatible
  rw [hlook]
  dsimp only
  rw [hentry]
  dsimp only
  rw [hc]
  rfl

/-- **Another store** keeps the directory served. -/
theorem served_store (hserved : w.Served sh cg dir) {kc : Store}
    (hreject : kc.rejectDifferentQuant = w.kc.rejectDifferentQuant) {s : LiveSession sh cg}
    (hsu : setupOf sh s.session = w.setup) {r : StoreRequest} (hother : w.OtherText r) {ok : Bool}
    (hstore : storeLivePrefixText sh env w.engine kc s.session r dir = (ok, dir'))
    (hthere : (dir'.lookup w.name).isSome = true) : w.Served sh cg dir' := by
  obtain ⟨rfl, hfail⟩ | ⟨rfl, est, hready, hcase⟩ := store_cases hstore
  · refine served_of_sub _ hserved hthere fun name bytes hb => ?_
    obtain rfl | rfl := hfail
    · exact hb
    · by_cases hn : name = storeName w.engine r
      · rw [hn, AList.lookup_erase] at hb
        cases hb
      · rwa [AList.lookup_erase_ne hn] at hb
  · by_cases htext : storeText w.engine r = w.text
    -- the same text: its file is kept
    · obtain ⟨bytes, e, hlook, hthere'⟩ := hserved.there
      have hctx : s.session.host.ctxSize = w.setup.ctxSize := congrArg Setup.ctxSize hsu
      have hname : storeName w.engine r = w.name := by rw [storeName, htext, Want.name]
      have hmax := hready.text
      have hkept := hstore
      rw [htext] at hmax
      rw [storeLivePrefixText_of_ready hready, hname, htext, hctx,
        existingCompatible_of_there hreject hlook hthere' hmax] at hkept
      cases hkept
      exact served_rewriteTrailer hserved _ _ _ hlook (entryOf_eq_some hthere'.entry).2.2.2
    · have hne : storeName w.engine r ≠ w.name := fun hn =>
        htext (hother.collision (sha_eq_of_name_eq hn))
      obtain ⟨bytes, e, hkept⟩ | ⟨payload, hnew⟩ := hcase
      · rw [hkept.dir_eq]
        exact served_rewriteTrailer hserved _ _ _ hkept.lookup
          ((readEntryFile_eq_some_iff).mp hkept.entry).1
      · obtain ⟨dir₁, hdir₁, hdir'⟩ := hnew.dir_eq
        have hsub : ∀ name bytes, dir₁.lookup name = some bytes → dir.lookup name = some bytes := by
          intro name bytes hb
          obtain rfl | rfl := hdir₁
          · exact hb
          · by_cases hn : name = storeName w.engine r
            · rw [hn, AList.lookup_erase] at hb
              cases hb
            · rwa [AList.lookup_erase_ne hn] at hb
        have hsame : dir₁.lookup w.name = dir.lookup w.name := by
          obtain rfl | rfl := hdir₁
          · rfl
          · exact AList.lookup_erase_ne hne.symm
        rw [hdir'] at hthere ⊢
        refine served_of_sub (dir₁.insert (storeName w.engine r) _) ?_ hthere
          fun name bytes h => lookup_of_evict h
        obtain ⟨b₀, e₀, hlook₀, hthere₀⟩ := hserved.there
        refine ⟨⟨b₀, e₀, ?_, hthere₀⟩, ?_⟩
        · rw [AList.lookup_insert_ne hne.symm, hsame]
          exact hlook₀
        · intro name b y hb hy hc
          by_cases hn : name = storeName w.engine r
          · subst hn
            rw [AList.lookup_insert] at hb
            cases hb
            obtain ⟨-, hi32, htb, -, -, -, hserves⟩ := serves_storeFile hready hnew.save hsu hy
            obtain ⟨hle, hmin, -, -⟩ := (eligible_iff).mp hc.eligible
            have hlong := hc.le
            have hsha := hc.sha
            rw [htb] at hle hlong hsha
            rw [hi32] at hmin
            obtain ⟨hinit, hcount⟩ := hother.selected hlong hle
              (hsha.trans (sha_of_entryOf hy)) hmin
            exact hserves hle hinit hcount
          · rw [AList.lookup_insert_ne hn] at hb
            exact hserved.serves name b y (hsub name b hb) hy hc

/-- **A step** between keeps what is wanted. -/
theorem holds_step {st : State} (h : w.Holds sh cg st) {op : Op sh cg} (hop : w.Between st op) :
    w.Holds sh cg (step st op) := by
  obtain ⟨hthere, hop⟩ := hop
  cases op with
  | openCache env budgetMb reject opt =>
    exact ⟨rfl, hop.1, hop.2, served_of_sub _ h.served hthere fun name bytes hb => lookup_of_evict hb⟩
  | store env engine s r =>
    obtain ⟨rfl, hsu, hother⟩ := hop
    refine ⟨h.enabled, h.opt, h.reject, ?_⟩
    exact served_store h.served h.reject hsu hother rfl hthere
  | load env engine prompt s =>
    cases ho : tryLoadText sh cg env engine st.kc prompt s.session st.dir st.dir with
    | none =>
      simp only [step, ho]
      exact ⟨h.enabled, h.opt, h.reject, h.served⟩
    | some o =>
      simp only [step, ho] at hthere ⊢
      obtain ⟨hdir, hkc⟩ := tryLoadText_dir ho
      have hserved : w.Served sh cg o.dir := by
        obtain hd | ⟨e, he, hd | ⟨hits, hd⟩⟩ := hdir
        · rw [hd]
          exact h.served
        · refine served_of_sub _ h.served hthere fun name bytes hb => ?_
          rw [hd] at hb
          by_cases hn : name = e.name
          · rw [hn, AList.lookup_erase] at hb
            cases hb
          · rwa [AList.lookup_erase_ne hn] at hb
        · obtain ⟨bytes, hlook, -, -, hw⟩ := of_mem_refresh he
          obtain ⟨e', hr⟩ := (rewritten_touchFile hw hits env.now).1
          rw [hd, touch, hlook]
          exact served_of_rewritten h.served hlook hw hr
      obtain hk | hk := hkc
      · exact ⟨by rw [hk]; exact h.enabled, by rw [hk]; exact h.opt, by rw [hk]; exact h.reject, hserved⟩
      · exact ⟨by rw [hk]; exact h.enabled, by rw [hk]; exact h.opt, by rw [hk]; exact h.reject, hserved⟩

/-- A directory serves under every cache with the same options. -/
theorem served_options {kc : Store} (h : w.Served sh cg dir) (hopt : kc.opt = w.kc.opt)
    (hreject : kc.rejectDifferentQuant = w.kc.rejectDifferentQuant) :
    ({ w with kc := kc } : Want).Served sh cg dir where
  there := by
    obtain ⟨bytes, e, hlook, he⟩ := h.there
    exact ⟨bytes, e, hlook, he.entry, (eligible_options hopt hreject ..).trans he.eligible, he.text,
      he.length⟩
  serves name bytes e hlook he hc := by
    have hs := h.serves name bytes e hlook he
      ⟨⟨(eligible_options hopt hreject ..).symm.trans hc.eligible, hc.sha⟩, hc.le⟩
    exact ⟨hs.textMatches, hs.loads⟩

/-- **Store, then load.** After a store that returned true, and operations that do not evict its file,
    a load for a prompt that starts with the text gets at least the tokens that were stored, if
    the directory does not spoil it. -/
theorem load_after_store {engine : Engine} {kc : Store} {s b : LiveSession sh cg} {r : StoreRequest}
    {prompt : List UInt8} {ops : List (Op sh cg)} (env' : Env)
    (hstore : storeLivePrefixText sh env engine kc s.session r dir = (true, dir'))
    (hthere : (dir'.lookup (storeName engine r)).isSome = true) (hprompt : storeText engine r <+: prompt)
    (hcond : (wantOf sh engine kc s.session r prompt).Reloadable sh cg dir)
    (hops : Guarded step (wantOf sh engine kc s.session r prompt).Between
      { kc := kc, dir := dir', stored := some (storeName engine r) } ops)
    (hsetup : setupOf sh b.session = setupOf sh s.session) :
    let st := ops.foldl step { kc := kc, dir := dir', stored := some (storeName engine r) }
    ∃ o, tryLoadText sh cg env' engine st.kc prompt b.session st.dir st.dir = some o ∧
      ((tokensCopyPrefix r.tokens r.storeLen).length : Int) ≤ o.loaded ∧ 0 < o.loaded := by
  intro st
  obtain ⟨h0, -⟩ | ⟨-, est, hready, -⟩ := store_cases hstore
  · cases h0
  · have hstart : (wantOf sh engine kc s.session r prompt).Holds sh cg
        { kc := kc, dir := dir', stored := some (storeName engine r) } :=
      ⟨hready.enabled, rfl, rfl, served_of_store hstore hprompt hcond hthere⟩
    have hend : (wantOf sh engine kc s.session r prompt).Holds sh cg st :=
      hops.invariant (fun _ _ h hop => holds_step h hop) hstart
    obtain ⟨o, ho, hcount⟩ := load_of_served (served_options hend.served hend.opt hend.reject) hprompt
      hend.enabled hready.quantBits env' b.wellFormed hsetup
    have hpos : 0 < (tokensCopyPrefix r.tokens r.storeLen).length := hcond.pos
    have hle : ((tokensCopyPrefix r.tokens r.storeLen).length : Int) ≤ o.loaded := hcount
    exact ⟨o, ho, hle, by omega⟩

/-! #### A store into an empty directory -/

theorem store_a : ∃ payload, liveToken.session.savePayload flash = .ok payload ∧
    storeLivePrefixText flash plainEnv plainEngine cache26 liveToken.session (request [0x61] none) ∅ =
      (true, AList.insert (storeName plainEngine (request [0x61] none)) (tokenFile [0x61] payload) ∅) := by
  have hsaved := Session.Valid.saved (liveToken.valid rfl)
  have hroom : kvBytes ∅ + (52 + 1 + 12811664) ≤ cache26.budgetBytes := by decide
  have hlen : (storeText plainEngine (request [0x61] none)).length = 1 := rfl
  rw [← payloadBytes_liveToken, ← hlen] at hroom
  exact ⟨_, hsaved.save, storeLivePrefixText_new (inv_start).clean plainEnv plainEngine liveToken
    (request [0x61] none) ready_a hsaved.save hsaved.bytes.symm (List.cons_ne_nil _ _) rfl
    (AList.lookup_empty _) (by decide) hroom⟩

/-- An empty directory spoils nothing. -/
theorem reloadable_empty : (wantOf flash plainEngine cache26 liveToken.session (request [0x61] none)
    [0x61, 0x62]).Reloadable flash ⟨false, 0⟩ ∅ where
  pos := by decide
  minTokens := by decide
  kept bytes e h := by cases h
  others name bytes e hn h := by cases h

/-- The text is stored, and loaded for a longer prompt. -/
theorem load_after_store_a : ∃ dir, storeLivePrefixText flash plainEnv plainEngine cache26
    liveToken.session (request [0x61] none) ∅ = (true, dir) ∧
      ∃ o, tryLoadText flash ⟨false, 0⟩ plainEnv plainEngine cache26 [0x61, 0x62] liveToken.session dir
        dir = some o ∧ (1 : Int) ≤ o.loaded ∧ 0 < o.loaded := by
  obtain ⟨payload, -, hstore⟩ := store_a
  refine ⟨_, hstore, ?_⟩
  exact @load_after_store _ _ _ _ _ _ _ _ liveToken _ _ [] plainEnv hstore
    (by rw [AList.lookup_insert]; rfl) ⟨[0x62], rfl⟩ reloadable_empty trivial rfl

/-! #### A payload that is not one -/

/-- A file with a header and a text, but no payload. -/
def poisonedFile : List UInt8 := fillHeader 2 0 0 1 0 4096 0 0 0 ++ (leBytes 4 1 ++ [0x61])

/-- The directory with that file. -/
def poisoned : Dir := AList.insert (storeName plainEngine (request [0x61] none)) poisonedFile ∅

theorem whole_poisonedFile : Whole
    { quantBits := 2, reason := 0, extFlags := 0, tokens := 1, hits := 0, ctxSize := 4096,
      createdAt := 0, lastUsed := 0, payloadBytes := 0, textBytes := 1 } poisonedFile :=
  { (readHeader_eq_some_iff).mp (readHeader_fillHeader (Or.inl rfl) (by decide) (by decide) (by decide)
      (by decide) (by decide) (by decide)) with
    noWrap := by decide
    size := by decide }

/-- The entry of that file. -/
def poisonedEntry : Entry :=
  { quantBits := 2, reason := 0, extFlags := 0, tokens := 1, hits := 0, ctxSize := 4096,
    createdAt := 0, lastUsed := 0, payloadBytes := 0, textBytes := 1,
    sha := sha1BytesHex [0x61], name := storeName plainEngine (request [0x61] none),
    fileSize := poisonedFile.length }

theorem readEntryFile_poisoned : readEntryFile (storeName plainEngine (request [0x61] none))
    (sha1BytesHex [0x61]) poisonedFile = some poisonedEntry :=
  (readEntryFile_eq_some_iff).mpr ⟨whole_poisonedFile, rfl, rfl, rfl⟩

theorem lookup_poisoned : poisoned.lookup (storeName plainEngine (request [0x61] none)) =
    some poisonedFile := AList.lookup_insert _

/-- The store finds its text there. -/
theorem store_poisoned : storeLivePrefixText flash plainEnv plainEngine cache26 liveToken.session
    (request [0x61] none) poisoned = (true, poisoned) := by
  have hcompat := @compatible_of_text cache26 poisonedEntry [0x61] poisonedFile 2 4096
    (whole_poisonedFile).toReadable rfl rfl (by decide) rfl (Nat.le_refl _)
  have hex : existingCompatible cache26 (storeName plainEngine (request [0x61] none))
      (sha1BytesHex (storeText plainEngine (request [0x61] none)))
      (storeText plainEngine (request [0x61] none)) plainEngine.quantBits
      liveToken.session.host.ctxSize poisoned = (true, poisoned) := by
    have hread : readEntryFile (storeName plainEngine (request [0x61] none))
      (sha1BytesHex (storeText plainEngine (request [0x61] none))) poisonedFile = some poisonedEntry :=
        readEntryFile_poisoned
    unfold existingCompatible
    rw [lookup_poisoned]
    dsimp only
    rw [hread]
    dsimp only
    exact if_pos hcompat
  rw [storeLivePrefixText_of_ready ready_a, hex]
  rfl

/-- No payload is loaded from no bytes. -/
theorem loadPayload_empty (cg : CtxGrow) {c : CpuSession} (hwf : c.WellFormed sh) {fp : Source} (h : fp.remaining = 0) :
    ∃ e fp' s', (Session.cpu c).loadPayload sh cg fp = (.error (.failed e), fp', s') := by
  have hhead : ¬ CpuSession.HeadFits sh c fp := by
    intro hh
    have htokens := hh.tokens
    unfold Source.avail at htokens
    omega
  obtain ⟨e, fp', s', he, -⟩ := CpuSession.exec_sessionLoadPayload_error hwf.logits
    (fun hacc => hhead hacc.head) fun hh => absurd hh hhead
  refine ⟨e, fp', .cpu s', ?_⟩
  unfold Session.loadPayload
  dsimp only
  rw [he]

/-- **A file without a payload** under the name of the text: the store returns true and leaves it, and
    the load after it gets nothing. -/
theorem not_load_after_store_poisoned :
    storeLivePrefixText flash plainEnv plainEngine cache26 liveToken.session (request [0x61] none)
        poisoned = (true, poisoned) ∧
      (poisoned.lookup (storeName plainEngine (request [0x61] none))).isSome = true ∧
      ∃ o, tryLoadText flash ⟨false, 0⟩ plainEnv plainEngine cache26 [0x61] liveToken.session poisoned
        poisoned = some o ∧ o.loaded = 0 := by
  refine ⟨store_poisoned, by rw [lookup_poisoned]; rfl, ?_⟩
  have hentry : entryOf ⟨storeName plainEngine (request [0x61] none), poisonedFile⟩ =
      some poisonedEntry := by
    unfold entryOf
    rw [show shaHexName (storeName plainEngine (request [0x61] none)) = _ from shaHexName_pathForSha _]
    exact readEntryFile_poisoned
  have hrefresh : refresh plainEnv poisoned = [poisonedEntry] := by
    have hentries : poisoned.entries = [⟨storeName plainEngine (request [0x61] none), poisonedFile⟩] := rfl
    unfold refresh
    rw [hentries]
    show List.filterMap entryOf [_] = _
    rw [List.filterMap_cons, hentry]
    rfl
  have hsel : Selects cache26 [0x61] 2 4096 poisonedEntry := ⟨by decide, rfl⟩
  have hfind : findTextPrefix plainEnv cache26 [0x61] 2 4096 poisoned = some poisonedEntry := by
    have hmem₀ : poisonedEntry ∈ refresh plainEnv poisoned := by
      rw [hrefresh]
      exact List.mem_singleton.mpr rfl
    obtain ⟨c, hc, -⟩ := exists_findTextPrefix hmem₀ hsel
    have hmem := (findTextPrefix_some hc).1
    rw [hrefresh] at hmem
    rw [hc, List.mem_singleton.mp hmem]
  have hcheck : checkText [0x61] (sha1BytesHex [0x61]) poisonedFile = some poisonedEntry.toHeader :=
    (checkText_eq_some_iff).mpr ⟨(whole_poisonedFile).toReadable, rfl, rfl, rfl, Nat.le_refl _⟩
  obtain ⟨e, fp', s', hload⟩ := loadPayload_empty ⟨false, 0⟩ (Session.valid_oneToken).toWellFormed
    (show (payloadSource poisonedFile poisonedEntry.toHeader).remaining = 0 from rfl)
  refine ⟨miss cache26 (invalidate s') poisoned, ?_, rfl⟩
  unfold tryLoadText
  have hfind' : findTextPrefix plainEnv cache26 [0x61] plainEngine.quantBits
      liveToken.session.host.ctxSize poisoned = some poisonedEntry := hfind
  have hload' : liveToken.session.loadPayload flash ⟨false, 0⟩
      (payloadSource poisonedFile poisonedEntry.toHeader) = (.error (.failed e), fp', s') := hload
  rw [if_neg (by decide), if_neg (by decide), hfind']
  dsimp only
  unfold loadFile
  have hlook : poisoned.lookup poisonedEntry.name = some poisonedFile := lookup_poisoned
  rw [hlook]
  dsimp only
  have hcheck' : checkText [0x61] poisonedEntry.sha poisonedFile = some poisonedEntry.toHeader := hcheck
  rw [hcheck']
  dsimp only
  rw [hload']

end DS4.KvStore
