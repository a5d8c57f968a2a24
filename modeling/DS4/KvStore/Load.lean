import DS4.KvStore.Store

namespace DS4.KvStore

/-!
# The KV cache — loading a checkpoint for a prompt

The file for the longest stored text that the prompt starts with is opened, checked against the
prompt once more, and its payload is loaded into the session.  Between the listing of the directory
and the opening of the file another process may have changed it: `scan` is the directory as it was
listed, `dir` as it is afterwards.

* `findTextPrefix` — the choice of a file.
* `checkText` — the checks of the file that was opened.
* `tryLoadText`, with `tryLoadText_cases` — the ways a load can end: a `Hit` or a `Miss`.
* `tryLoadText_dir` — what a load does to the directory.
-/

open DS4.Lib DS4.Checkpoint

/-! ### Choosing a file -/

/-- An entry that a prompt of so many bytes can use. -/
def eligible (kc : Store) (promptBytes : Nat) (quantBits : Int) (ctxSize : Nat) (e : Entry) : Bool :=
  e.textBytes ≤ promptBytes && kc.opt.minTokens ≤ i32 e.tokens && e.ctxSize ≤ ctxSize &&
    (!kc.rejectDifferentQuant || e.quantBits == UInt8.ofNat quantBits.toNat)

/-- An entry that is preferred to the best so far: a longer text, or more tokens. -/
def preferred (best : Option Entry) (e : Entry) : Bool :=
  match best with
  | none   => true
  | some b => b.textBytes < e.textBytes || (e.textBytes == b.textBytes && b.tokens < e.tokens)

/-- One turn of the loop of `ds4_kvstore_find_text_prefix`. -/
def findStep (kc : Store) (prompt : List UInt8) (quantBits : Int) (ctxSize : Nat)
    (best : Option Entry) (e : Entry) : Option Entry :=
  if eligible kc prompt.length quantBits ctxSize e && preferred best e &&
      sha1BytesHex (prompt.take e.textBytes) == e.sha then some e
  else best

/-- `ds4_kvstore_find_text_prefix` -/
def findTextPrefix (env : Env) (kc : Store) (prompt : List UInt8) (quantBits : Int) (ctxSize : Nat)
    (dir : Dir) : Option Entry :=
  (refresh env dir).foldl (findStep kc prompt quantBits ctxSize) none

/-! ### Loading -/

/-- `ds4_session_invalidate` -/
def invalidateHost (h : Host) : Host :=
  { h with checkpointValid := false, checkpoint := [], mtpDraftValid := false }

/-- `ds4_session_invalidate` on either back end. -/
def invalidate : Session → Session
  | .graph g => .graph { g with toHost := invalidateHost g.toHost }
  | .cpu s   => .cpu { s with toHost := invalidateHost s.toHost }

/-- The checks of a file that was opened, `sha` being the digest of its name: the header, and the
    text, which must be what the prompt starts with. -/
def checkText (prompt sha bytes : List UInt8) : Option Header :=
  match readHeader bytes with
  | none     => none
  | some hdr =>
    if prompt.length < hdr.textBytes then none
    else
      let cached := textOf bytes hdr.textBytes
      if cached.length ≠ hdr.textBytes then none
      else if sha1BytesHex cached ≠ sha then none
      else if prompt.take hdr.textBytes ≠ cached then none
      else some hdr

/-- The payload of a file. -/
def payloadSource (bytes : List UInt8) (hdr : Header) : Source where
  data := bytes
  pos := 52 + hdr.textBytes
  remaining := hdr.payloadBytes

/-- `ds4_kvstore_load_result` -/
structure LoadResult where
  tokens : Int
  textBytes : Nat
  quantBits : UInt8
  extFlags : UInt8
  consumed : Bool
  name : Name

/-- What a load leaves. -/
structure LoadOutcome where
  loaded : Int
  effectivePrompt : List Int
  result : Option LoadResult
  session : Session
  kc : Store
  dir : Dir

/-- `ds4_kvstore_build_prompt_from_exact_prefix_and_text_suffix` -/
def buildPrompt (engine : Engine) (exactPrefix : List Int) (suffixText : List UInt8) : List Int :=
  exactPrefix ++ engine.tokenizeRenderedChat suffixText

/-- `ds4_kvstore_touch_file` -/
def touch (now : Nat) (name : Name) (hits : Nat) (dir : Dir) : Dir :=
  match dir.lookup name with
  | none       => dir
  | some bytes => dir.insert name (touchFile hits now bytes)

/-- After a hit: a long checkpoint is used up, another one is touched. -/
def finishHit (env : Env) (engine : Engine) (kc : Store) (name : Name) (hdr : Header)
    (prompt : List UInt8) (s : Session) (dir : Dir) : LoadOutcome :=
  let loaded := i32 hdr.tokens
  let consumed := 0 < kc.opt.coldMaxTokens && kc.opt.coldMaxTokens < loaded
  { loaded := loaded
    effectivePrompt := buildPrompt engine s.host.checkpoint (prompt.drop hdr.textBytes)
    result := some
      { tokens := loaded, textBytes := hdr.textBytes, quantBits := hdr.quantBits,
        extFlags := hdr.extFlags, consumed := consumed, name := name }
    session := s
    kc := { kc with continuedLastStoreTokens := loaded }
    dir := if consumed then dir.erase name else touch env.now name (hdr.hits + 1) dir }

/-- A load that found nothing to use. -/
def miss (kc : Store) (s : Session) (dir : Dir) : LoadOutcome :=
  { loaded := 0, effectivePrompt := [], result := none, session := s, kc := kc, dir := dir }

/-- The file `name` is opened and loaded; `none` when the load writes past a buffer. -/
def loadFile (sh : Shape) (cg : CtxGrow) (env : Env) (engine : Engine) (kc : Store) (e : Entry)
    (prompt : List UInt8) (s : Session) (dir : Dir) : Option LoadOutcome :=
  match dir.lookup e.name with
  | none       => some (miss kc s dir)
  | some bytes =>
    match checkText prompt e.sha bytes with
    | none     => some (miss kc s dir)
    | some hdr =>
      match s.loadPayload sh cg (payloadSource bytes hdr) with
      | (.error (.overflow _), _, _)  => none
      | (.error (.failed _), _, s')   => some (miss kc (invalidate s') dir)
      | (.ok _, _, s')                =>
        if (s'.host.checkpoint.length : Int) = i32 hdr.tokens then
          some (finishHit env engine kc e.name hdr prompt s' dir)
        else some (miss kc (invalidate s') (dir.erase e.name))

/-- `ds4_kvstore_try_load_text` -/
def tryLoadText (sh : Shape) (cg : CtxGrow) (env : Env) (engine : Engine) (kc : Store)
    (prompt : List UInt8) (s : Session) (scan dir : Dir) : Option LoadOutcome :=
  if !kc.enabled then some (miss kc s dir)
  else if engine.quantBits ≠ 2 ∧ engine.quantBits ≠ 4 then some (miss kc s dir)
  else
    match findTextPrefix env kc prompt engine.quantBits s.host.ctxSize scan with
    | none   => some (miss kc s dir)
    | some e => loadFile sh cg env engine kc e prompt s dir

variable {sh : Shape} {cg : CtxGrow} {env : Env} {engine : Engine} {kc : Store} {prompt : List UInt8}
  {s : Session} {scan dir : Dir}

/-! ### What the choice says -/

/-- An entry that the prompt selects: it can be used, and its digest is that of a start of the
    prompt. -/
structure Selects (kc : Store) (prompt : List UInt8) (quantBits : Int) (ctxSize : Nat) (e : Entry) :
    Prop where
  eligible : eligible kc prompt.length quantBits ctxSize e = true
  sha : sha1BytesHex (prompt.take e.textBytes) = e.sha

theorem findStep_cases {q : Int} {ctx : Nat} (best : Option Entry) (e : Entry) :
    (findStep kc prompt q ctx best e = some e ∧ Selects kc prompt q ctx e ∧
        preferred best e = true) ∨
      findStep kc prompt q ctx best e = best ∧
        (Selects kc prompt q ctx e → preferred best e = false) := by
  unfold findStep
  by_cases h : (KvStore.eligible kc prompt.length q ctx e && preferred best e &&
      sha1BytesHex (prompt.take e.textBytes) == e.sha) = true
  · rw [if_pos h]
    simp only [Bool.and_eq_true, beq_iff_eq] at h
    exact Or.inl ⟨rfl, ⟨h.1.1, h.2⟩, h.1.2⟩
  · rw [if_neg h]
    refine Or.inr ⟨rfl, fun hs => ?_⟩
    by_contra hp
    refine h ?_
    rw [hs.eligible, hs.sha, beq_self_eq_true, (Bool.not_eq_false _).mp hp]
    rfl

theorem le_of_not_preferred {b e : Entry} (h : preferred (some b) e = false) :
    e.textBytes ≤ b.textBytes := by
  simp only [preferred, Bool.or_eq_false_iff, decide_eq_false_iff_not] at h
  omega

theorem le_of_preferred {b e : Entry} (h : preferred (some b) e = true) :
    b.textBytes ≤ e.textBytes := by
  simp only [preferred, Bool.or_eq_true, Bool.and_eq_true, decide_eq_true_eq, beq_iff_eq] at h
  omega

/-- The choice goes on from a best entry: it is selected, and no shorter. -/
theorem foldl_findStep_some {q : Int} {ctx : Nat} {es : List Entry} {b : Entry}
    (hb : Selects kc prompt q ctx b) :
    ∃ c, es.foldl (findStep kc prompt q ctx) (some b) = some c ∧ Selects kc prompt q ctx c ∧
      (c = b ∨ c ∈ es) ∧ b.textBytes ≤ c.textBytes ∧
      ∀ e ∈ es, Selects kc prompt q ctx e → e.textBytes ≤ c.textBytes := by
  induction es generalizing b with
  | nil => exact ⟨b, rfl, hb, Or.inl rfl, Nat.le_refl _, fun e he => absurd he List.not_mem_nil⟩
  | cons e es ih =>
    rw [List.foldl_cons]
    obtain ⟨hstep, hs, hpref⟩ | ⟨hstep, hnot⟩ := @findStep_cases kc prompt q ctx (some b) e
    · rw [hstep]
      obtain ⟨c, hc, hsel, hmem, hle, hall⟩ := ih hs
      refine ⟨c, hc, hsel, Or.inr ?_, (le_of_preferred hpref).trans hle,
        List.forall_mem_cons.mpr ⟨fun _ => hle, hall⟩⟩
      obtain rfl | hmem := hmem
      · exact List.mem_cons_self
      · exact List.mem_cons_of_mem e hmem
    · rw [hstep]
      obtain ⟨c, hc, hsel, hmem, hle, hall⟩ := ih hb
      exact ⟨c, hc, hsel, hmem.imp_right (List.mem_cons_of_mem e), hle, List.forall_mem_cons.mpr
        ⟨fun he => (le_of_not_preferred (hnot he)).trans hle, hall⟩⟩

/-- **The choice** is among the entries that the prompt selects. -/
theorem findTextPrefix_some {q : Int} {ctx : Nat} {e : Entry}
    (h : findTextPrefix env kc prompt q ctx dir = some e) :
    e ∈ refresh env dir ∧ Selects kc prompt q ctx e := by
  unfold findTextPrefix at h
  generalize refresh env dir = all at h ⊢
  induction all with
  | nil => cases h
  | cons x es ih =>
    rw [List.foldl_cons] at h
    obtain ⟨hstep, hs, -⟩ | ⟨hstep, -⟩ := @findStep_cases kc prompt q ctx none x
    · rw [hstep] at h
      obtain ⟨c, hc, hsel, hmem, -, -⟩ := @foldl_findStep_some kc prompt q ctx es x hs
      rw [hc] at h
      cases h
      obtain rfl | hmem := hmem
      · exact ⟨List.mem_cons_self, hsel⟩
      · exact ⟨List.mem_cons_of_mem x hmem, hsel⟩
    · rw [hstep] at h
      exact ⟨List.mem_cons_of_mem x (ih h).1, (ih h).2⟩

/-- **The longest text** is chosen of those that the prompt selects. -/
theorem exists_findTextPrefix {q : Int} {ctx : Nat} {e : Entry} (he : e ∈ refresh env dir)
    (hs : Selects kc prompt q ctx e) :
    ∃ c, findTextPrefix env kc prompt q ctx dir = some c ∧ e.textBytes ≤ c.textBytes := by
  unfold findTextPrefix
  generalize refresh env dir = all at he ⊢
  induction all with
  | nil => cases he
  | cons x es ih =>
    rw [List.foldl_cons]
    obtain ⟨hstep, hx, -⟩ | ⟨hstep, hnot⟩ := @findStep_cases kc prompt q ctx none x
    · rw [hstep]
      obtain ⟨c, hc, -, -, hle, hall⟩ := @foldl_findStep_some kc prompt q ctx es x hx
      obtain rfl | he := List.mem_cons.mp he
      · exact ⟨c, hc, hle⟩
      · exact ⟨c, hc, hall e he hs⟩
    · rw [hstep]
      obtain rfl | he := List.mem_cons.mp he
      -- the first entry that is selected is preferred to none
      · exact absurd (hnot hs) Bool.noConfusion
      · exact ih he

/-! ### What the checks say -/

/-- What a file that passes the checks is like. -/
structure TextMatches (prompt sha bytes : List UInt8) (hdr : Header) : Prop where
  readable : hdr.Readable bytes
  length : (textOf bytes hdr.textBytes).length = hdr.textBytes
  digest : sha1BytesHex (textOf bytes hdr.textBytes) = sha
  initial : prompt.take hdr.textBytes = textOf bytes hdr.textBytes
  le : hdr.textBytes ≤ prompt.length

theorem checkText_eq_some_iff {sha bytes : List UInt8} {hdr : Header} :
    checkText prompt sha bytes = some hdr ↔ TextMatches prompt sha bytes hdr := by
  unfold checkText
  constructor
  · intro h
    split at h
    · cases h
    · rename_i hdr' hread
      dsimp only at h
      split_ifs at h with hlen hshort hsha hinit
      cases h
      exact ⟨(readHeader_eq_some_iff).mp hread, not_not.mp hshort, not_not.mp hsha,
        not_not.mp hinit, Nat.le_of_not_lt hlen⟩
  · intro h
    rw [(readHeader_eq_some_iff).mpr h.readable]
    dsimp only
    rw [if_neg (Nat.not_lt.mpr h.le), if_neg (not_not.mpr h.length), if_neg (not_not.mpr h.digest),
      if_neg (not_not.mpr h.initial)]

/-! ### What a payload leaves in the session -/

/-- A load that succeeds leaves the tokens of the payload, under a valid checkpoint. -/
theorem loadPayload_ok (hwf : s.WellFormed sh cg) {fp fp' : Source} {s' : Session}
    (h : s.loadPayload sh cg fp = (.ok (), fp', s')) :
    s'.host.checkpoint = streamTokens fp ∧ s'.host.checkpointValid = true := by
  cases s with
  | graph g =>
    have hg : g.WellFormed sh cg := hwf
    unfold Session.loadPayload at h
    dsimp only at h
    by_cases hacc : GraphSession.Accepts sh cg g fp
    · rw [GraphSession.exec_sessionLoadPayload_ok hg hacc] at h
      cases h
      exact ⟨rfl, rfl⟩
    · obtain ⟨e, fp₁, g₁, he, -⟩ := GraphSession.exec_sessionLoadPayload_error hg hacc
      rw [he] at h
      cases h
  | cpu c =>
    have hc : c.WellFormed sh := hwf
    unfold Session.loadPayload at h
    dsimp only at h
    by_cases hacc : CpuSession.Accepts sh c fp
    · rw [CpuSession.exec_sessionLoadPayload_ok hc.logits hacc] at h
      cases h
      exact ⟨rfl, rfl⟩
    · by_cases hfits : CpuSession.HeadFits sh c fp → CpuSession.CountsReached sh c fp →
          CpuSession.BodyFits sh c fp
      · obtain ⟨e, fp₁, s₁, he, -⟩ := CpuSession.exec_sessionLoadPayload_error hc.logits hacc hfits
        rw [he] at h
        cases h
      · push Not at hfits
        obtain ⟨hh, hreach, hover⟩ := hfits
        obtain ⟨b, fp₁, s₁, he⟩ :=
          CpuSession.exec_sessionLoadPayload_overflow hc.logits hh hreach hover
        rw [he] at h
        cases h

/-- A session without a checkpoint. -/
structure Invalidated (s : Session) : Prop where
  checkpointValid : s.host.checkpointValid = false
  checkpoint : s.host.checkpoint = []
  mtpDraftValid : s.host.mtpDraftValid = false

theorem invalidated_invalidate (s : Session) : Invalidated (invalidate s) := by
  cases s <;> exact ⟨rfl, rfl, rfl⟩

/-! ### A hit and a miss -/

/-- A hit on this file: the stored text is what the prompt starts with, the session holds the
    tokens of the payload, and they are what the effective prompt starts with. -/
structure Hit (sh : Shape) (cg : CtxGrow) (engine : Engine) (prompt : List UInt8) (s : Session)
    (o : LoadOutcome) (bytes : List UInt8) (hdr : Header) : Prop where
  readable : hdr.Readable bytes
  length : (textOf bytes hdr.textBytes).length = hdr.textBytes
  text : textOf bytes hdr.textBytes <+: prompt
  load : ∃ fp, s.loadPayload sh cg (payloadSource bytes hdr) = (.ok (), fp, o.session)
  valid : o.session.host.checkpointValid = true
  tokens : o.session.host.checkpoint = streamTokens (payloadSource bytes hdr)
  loaded : o.loaded = (o.session.host.checkpoint.length : Int) ∧ o.loaded = (hdr.tokens : Int)
  effectivePrompt : o.effectivePrompt =
    o.session.host.checkpoint ++ engine.tokenizeRenderedChat (prompt.drop hdr.textBytes)

/-- A miss: nothing is to be used, and the session is as it was or without a checkpoint. -/
structure Miss (s : Session) (o : LoadOutcome) : Prop where
  loaded : o.loaded = 0
  effectivePrompt : o.effectivePrompt = []
  result : o.result = none
  session : o.session = s ∨ Invalidated o.session

/-- The ways a load of a file can end. -/
theorem loadFile_cases (hwf : s.WellFormed sh cg) {e : Entry} {o : LoadOutcome}
    (h : loadFile sh cg env engine kc e prompt s dir = some o) :
    (∃ bytes hdr, dir.lookup e.name = some bytes ∧ TextMatches prompt e.sha bytes hdr ∧
        Hit sh cg engine prompt s o bytes hdr) ∨ Miss s o := by
  unfold loadFile at h
  split at h
  -- the file is gone
  · cases h
    exact Or.inr ⟨rfl, rfl, rfl, Or.inl rfl⟩
  · rename_i bytes hbytes
    split at h
    -- it is not the file that was listed
    · cases h
      exact Or.inr ⟨rfl, rfl, rfl, Or.inl rfl⟩
    · rename_i hdr hcheck
      have hm := (checkText_eq_some_iff).mp hcheck
      split at h
      · cases h
      · rename_i e' fp' s' hload
        cases h
        exact Or.inr ⟨rfl, rfl, rfl, Or.inr (invalidated_invalidate s')⟩
      · rename_i u fp' s' hload
        split at h
        · rename_i hlen
          cases h
          obtain ⟨htok, hvalid⟩ := loadPayload_ok hwf hload
          have hpos := hm.readable.tokens
          have hlt := hm.readable.sized.tokens
          have hnum : i32 hdr.tokens = (hdr.tokens : Int) := by
            -- a count of 2^31 or more would be negative
            unfold i32 at hlen ⊢
            split at hlen <;> omega
          refine Or.inl ⟨bytes, hdr, hbytes, hm, hm.readable, hm.length, ?_, ⟨fp', hload⟩, hvalid,
            htok, ⟨hlen.symm, hnum⟩, rfl⟩
          rw [← hm.initial]
          exact List.take_prefix _ _
        · cases h
          exact Or.inr ⟨rfl, rfl, rfl, Or.inr (invalidated_invalidate s')⟩

/-- The ways a load for a prompt can end. -/
theorem tryLoadText_cases (hwf : s.WellFormed sh cg) {o : LoadOutcome}
    (h : tryLoadText sh cg env engine kc prompt s scan dir = some o) :
    (∃ name bytes hdr, dir.lookup name = some bytes ∧ Hit sh cg engine prompt s o bytes hdr) ∨
      Miss s o := by
  unfold tryLoadText at h
  split at h
  · cases h
    exact Or.inr ⟨rfl, rfl, rfl, Or.inl rfl⟩
  · split at h
    · cases h
      exact Or.inr ⟨rfl, rfl, rfl, Or.inl rfl⟩
    · split at h
      · cases h
        exact Or.inr ⟨rfl, rfl, rfl, Or.inl rfl⟩
      · rename_i e he
        obtain ⟨bytes, hdr, hbytes, -, hhit⟩ | hmiss := loadFile_cases hwf h
        · exact Or.inl ⟨e.name, bytes, hdr, hbytes, hhit⟩
        · exact Or.inr hmiss

theorem finishHit_dir {name : Name} {hdr : Header} :
    (finishHit env engine kc name hdr prompt s dir).dir = dir.erase name ∨
      ∃ hits, (finishHit env engine kc name hdr prompt s dir).dir = touch env.now name hits dir := by
  unfold finishHit
  dsimp only
  split
  · exact Or.inl rfl
  · exact Or.inr ⟨hdr.hits + 1, rfl⟩

/-- What a load does to the directory and the cache. -/
theorem tryLoadText_dir {o : LoadOutcome}
    (h : tryLoadText sh cg env engine kc prompt s scan dir = some o) :
    (o.dir = dir ∨ ∃ e ∈ refresh env scan,
        o.dir = dir.erase e.name ∨ ∃ hits, o.dir = touch env.now e.name hits dir) ∧
      (o.kc = kc ∨ o.kc = { kc with continuedLastStoreTokens := o.loaded }) := by
  have hmiss : ∀ {s'}, o = miss kc s' dir → o.dir = dir ∧ o.kc = kc := fun ho => by
    rw [ho]
    exact ⟨rfl, rfl⟩
  unfold tryLoadText loadFile at h
  split at h
  · obtain ⟨hd, hk⟩ := hmiss (Option.some.inj h).symm
    exact ⟨Or.inl hd, Or.inl hk⟩
  · split at h
    · obtain ⟨hd, hk⟩ := hmiss (Option.some.inj h).symm
      exact ⟨Or.inl hd, Or.inl hk⟩
    · split at h
      · obtain ⟨hd, hk⟩ := hmiss (Option.some.inj h).symm
        exact ⟨Or.inl hd, Or.inl hk⟩
      · rename_i e he
        split at h
        · obtain ⟨hd, hk⟩ := hmiss (Option.some.inj h).symm
          exact ⟨Or.inl hd, Or.inl hk⟩
        · split at h
          · obtain ⟨hd, hk⟩ := hmiss (Option.some.inj h).symm
            exact ⟨Or.inl hd, Or.inl hk⟩
          · split at h
            · cases h
            · obtain ⟨hd, hk⟩ := hmiss (Option.some.inj h).symm
              exact ⟨Or.inl hd, Or.inl hk⟩
            · split at h
              · rename_i hdr hcheck u fp' s' hload hlen
                cases h
                exact ⟨Or.inr ⟨e, (findTextPrefix_some he).1, finishHit_dir⟩, Or.inr rfl⟩
              · cases h
                exact ⟨Or.inr ⟨e, (findTextPrefix_some he).1, Or.inl rfl⟩, Or.inl rfl⟩

theorem Hit.loaded_pos {o : LoadOutcome} {bytes : List UInt8} {hdr : Header}
    (h : Hit sh cg engine prompt s o bytes hdr) : 0 < o.loaded := by
  have hpos := h.readable.tokens
  have hloaded := h.loaded.2
  omega

end DS4.KvStore
