import DS4.KvStore.StoreLoad

namespace DS4.Agent

/-!
# Agent — saved sessions

A session is saved under the digest of its rendered text, in the format of the KV cache; the files
whose text the new text starts with are deleted then.  A load also looks at the quantization, which
the texts do not tell.

* `agentKvLoadFile`, `agentKvSavePath`, `agentKvDeletePrefixSessions`, `agentWorkerSaveSessionNow` —
  the functions of the agent.
* `Saved`, `step` — the sessions that were saved, over a run of saves.
* `Own` — a file that a save has written; `Own.accepts_iff` — who loads it.
* `Inv`, `inv_step` — every session is covered by one whose file is there.
* `saves_keep_sessions` — every session can still be loaded where its own file could.
* `not_keepsSessions_otherQuant` — unless another quantization saves the same text.
-/

open DS4.Lib DS4.Checkpoint DS4.KvStore

/-! ### Loading -/

/-- `agent_kv_read_text` -/
def agentKvReadText (bytes : List UInt8) (textBytes : Nat) : Option (List UInt8) :=
  let text := textOf bytes textBytes
  if text.length = textBytes then some text else none

/-- The checks of `agent_kv_load_path` before the payload. -/
def agentKvCheckFile (engine : Engine) (expectedSha expectedText : Option (List UInt8))
    (bytes : List UInt8) : Option Header :=
  match readHeader bytes with
  | none     => none
  | some hdr =>
    match agentKvReadText bytes hdr.textBytes with
    | none      => none
    | some text =>
      if hdr.quantBits ≠ UInt8.ofNat engine.quantBits.toNat then none
      else if expectedText.any fun t => text != t then none
      else if expectedSha.any fun sha => sha1BytesHex text != sha then none
      else some hdr

/-- `agent_kv_load_path` on a file that could be opened; `none` when the load writes past a
    buffer. -/
def agentKvLoadFile (sh : Shape) (cg : CtxGrow) (engine : Engine) (s : Session)
    (expectedSha expectedText : Option (List UInt8)) (bytes : List UInt8) : Option (Bool × Session) :=
  match agentKvCheckFile engine expectedSha expectedText bytes with
  | none     => some (false, s)
  | some hdr =>
    match s.loadPayload sh cg (payloadSource bytes hdr) with
    | (.error (.overflow _), _, _) => none
    | (.error (.failed _), _, s')  => some (false, invalidate s')
    | (.ok _, _, s')               =>
      if (s'.host.checkpoint.length : Int) = i32 hdr.tokens then some (true, s')
      else some (false, invalidate s')

/-! ### Saving -/

/-- The file that `agent_kv_save_path` writes. -/
def agentFile (sh : Shape) (now : Nat) (engine : Engine) (s : Session) (tokens : List Int)
    (reason : Option String) (text payload : List UInt8) : List UInt8 :=
  fillHeader (UInt8.ofNat engine.quantBits.toNat) (reasonCode reason) 0 tokens.length 0
    s.host.ctxSize now now (s.payloadBytes sh) ++ leBytes 4 text.length ++ text ++ payload

/-- `agent_kv_save_path`: to a temporary file, which is renamed. -/
def agentKvSavePath (sh : Shape) (now : Nat) (engine : Engine) (s : Session) (tokens : List Int)
    (reason : Option String) (name : Name) (dir : Dir) : Bool × Dir :=
  if s.host.checkpoint ≠ tokens then (false, dir)
  else if engine.quantBits ≠ 2 ∧ engine.quantBits ≠ 4 then (false, dir)
  else
    let text := renderTokensText engine tokens
    if UINT32_MAX < text.length then (false, dir)
    else if s.payloadBytes sh = 0 then (false, dir)
    else
      match s.savePayload sh with
      | .error _    => (false, dir)
      | .ok payload => (true, dir.insert name (agentFile sh now engine s tokens reason text payload))

/-- A file that `agent_kv_delete_prefix_sessions` deletes. -/
def deletesFile (currentSha currentText : List UInt8) (name : Name) (bytes : List UInt8) : Bool :=
  match shaHexName name with
  | none     => false
  | some sha =>
    if sha = currentSha then false
    else
      match readHeader bytes with
      | none     => false
      | some hdr =>
        match agentKvReadText bytes hdr.textBytes with
        | none         => false
        | some oldText => hdr.textBytes < currentText.length && oldText.isPrefixOf currentText

/-- `agent_kv_delete_prefix_sessions` -/
def agentKvDeletePrefixSessions (env : Env) (currentSha currentText : List UInt8) (dir : Dir) : Dir :=
  (env.list dir.entries).foldl
    (fun d f => if deletesFile currentSha currentText f.1 f.2 then d.erase f.1 else d) dir

/-- `agent_worker_save_session_now`, where `synced` is the session after
    `agent_worker_sync_tokens`, if that succeeds. -/
def agentWorkerSaveSessionNow (sh : Shape) (env : Env) (engine : Engine) (userActivity : Bool)
    (synced : Option Session) (transcript : List Int) (dir : Dir) : Bool × Dir :=
  if !userActivity then (false, dir)
  else
    match synced with
    | none   => (false, dir)
    | some s =>
      let text := renderTokensText engine transcript
      let sha := sha1BytesHex text
      match agentKvSavePath sh env.now engine s transcript (some "agent-session") (pathForSha sha)
          dir with
      | (false, dir) => (false, dir)
      | (true, dir)  => (true, agentKvDeletePrefixSessions env sha text dir)

/-! ### What a deletion leaves -/

theorem lookup_foldl_deletes {del : Name → List UInt8 → Bool}
    {fs : List (Sigma fun _ : Name => List UInt8)} {dir : Dir} {name : Name} :
    (fs.foldl (fun d f => if del f.1 f.2 then d.erase f.1 else d) dir).lookup name =
      if fs.any fun f => f.1 == name && del f.1 f.2 then none else dir.lookup name := by
  induction fs generalizing dir with
  | nil => rfl
  | cons f fs ih =>
    rw [List.foldl_cons, ih, List.any_cons]
    by_cases hdel : del f.1 f.2 = true
    · rw [if_pos hdel]
      by_cases hname : f.1 = name
      · subst hname
        simp [hdel, AList.lookup_erase]
      · rw [AList.lookup_erase_ne (Ne.symm hname), beq_eq_false_iff_ne.mpr hname, Bool.false_and,
          Bool.false_or]
    · rw [if_neg hdel, Bool.eq_false_iff.mpr hdel, Bool.and_false, Bool.false_or]

/-- **What is left** after the deletion. -/
theorem lookup_deletePrefixSessions (env : Env) (sha text : List UInt8) (dir : Dir) (name : Name) :
    (agentKvDeletePrefixSessions env sha text dir).lookup name =
      (dir.lookup name).filter fun bytes => !deletesFile sha text name bytes := by
  unfold agentKvDeletePrefixSessions
  rw [lookup_foldl_deletes]
  cases hl : dir.lookup name with
  | none =>
    rw [Option.filter_none]
    split <;> rfl
  | some bytes =>
    have hmem : ∀ f, f ∈ env.list dir.entries ↔ dir.lookup f.1 = some f.2 := fun f =>
      (env.list_perm dir.entries).mem_iff.trans mem_entries
    have hany : ((env.list dir.entries).any fun f => f.1 == name && deletesFile sha text f.1 f.2) =
        deletesFile sha text name bytes := by
      rw [Bool.eq_iff_iff, List.any_eq_true]
      constructor
      · rintro ⟨f, hf, hdel⟩
        rw [Bool.and_eq_true, beq_iff_eq] at hdel
        obtain ⟨rfl, hdel⟩ := hdel
        rw [hmem, hl] at hf
        rwa [Option.some.inj hf]
      · intro hdel
        exact ⟨⟨name, bytes⟩, (hmem _).mpr hl, by rw [hdel, beq_self_eq_true]; rfl⟩
    rw [hany, Option.filter_some]
    cases deletesFile sha text name bytes <;> rfl

/-! ### Runs of saves -/

variable {sh : Shape} {cg : CtxGrow} {su : Setup}

/-- A call of `agent_worker_save_session_now` by an engine with this shape and setup. -/
structure Save (sh : Shape) (cg : CtxGrow) (su : Setup) where
  env : Env
  engine : Engine
  userActivity : Bool
  session : LiveSession sh cg
  setup : setupOf sh session.session = su
  /-- the size of what is in memory is a `uint64_t` -/
  bytes_lt : session.session.payloadBytes sh < 256 ^ 8
  synced : Bool
  transcript : List Int
  /-- a user message is in the transcript, or it was loaded -/
  active : userActivity = true → transcript ≠ []

/-- The text of the call. -/
def Save.text (op : Save sh cg su) : List UInt8 := renderTokensText op.engine op.transcript

/-- The quantization that its file names. -/
def Save.quantBits (op : Save sh cg su) : UInt8 := UInt8.ofNat op.engine.quantBits.toNat

/-- What the call does to the directory. -/
def Save.run (op : Save sh cg su) (dir : Dir) : Bool × Dir :=
  agentWorkerSaveSessionNow sh op.env op.engine op.userActivity
    (if op.synced then some op.session.session else none) op.transcript dir

/-- A session that was saved: its text, the quantization of its engine, and the file as it was
    written. -/
structure Saved where
  text : List UInt8
  quantBits : UInt8
  file : List UInt8

/-- The name of the file. -/
def Saved.name (x : Saved) : Name := pathForSha (sha1BytesHex x.text)

/-- The directory, and what was saved there. -/
structure State where
  dir : Dir
  saved : List Saved

/-- What a call has saved, when it has left this directory. -/
def Save.saved (op : Save sh cg su) (dir : Dir) : Saved where
  text := op.text
  quantBits := op.quantBits
  file := (dir.lookup (pathForSha (sha1BytesHex op.text))).getD []

/-- One call; only a successful one is remembered. -/
def step (st : State) (op : Save sh cg su) : State :=
  match op.run st.dir with
  | (false, dir) => { st with dir := dir }
  | (true, dir)  => { dir := dir, saved := op.saved dir :: st.saved }

/-- An engine with this session accepts the file. -/
def Accepts (sh : Shape) (cg : CtxGrow) (engine : Engine) (b : Session) (name : Name)
    (bytes : List UInt8) : Prop :=
  ∃ b', agentKvLoadFile sh cg engine b (shaHexName name) none bytes = some (true, b')

/-- **Every session that was saved** is still there: in a file whose text begins with its own, and
    that every engine with this setup accepts that would accept its own file. -/
def KeepsSessions (sh : Shape) (cg : CtxGrow) (su : Setup) (st : State) : Prop :=
  ∀ x ∈ st.saved, ∃ name bytes hdr, st.dir.lookup name = some bytes ∧ readHeader bytes = some hdr ∧
    x.text <+: textOf bytes hdr.textBytes ∧
    ∀ (engine : Engine) (b : Session), b.WellFormed sh cg → setupOf sh b = su →
      Accepts sh cg engine b x.name x.file → Accepts sh cg engine b name bytes

/-- The calls that lose nothing: of the files in the directory that were saved before, those whose
    text the new text begins with were saved for the same quantization, and no other text has the
    same digest. -/
def Spares (st : State) (op : Save sh cg su) : Prop :=
  ∀ x ∈ st.saved, st.dir.lookup x.name = some x.file →
    (x.text <+: op.text → x.quantBits = op.quantBits) ∧
      (sha1BytesHex x.text = sha1BytesHex op.text → x.text = op.text)

/-! ### The file that a call writes -/

/-- A file as a successful call has written it. -/
structure Own (sh : Shape) (cg : CtxGrow) (su : Setup) (x : Saved) (hdr : Header) : Prop where
  header : readHeader x.file = some hdr
  quantBits : hdr.quantBits = x.quantBits
  text : textOf x.file hdr.textBytes = x.text
  length : hdr.textBytes = x.text.length
  loads : ∃ tokens, LoadsAs sh cg su (payloadOf x.file hdr) tokens ∧
    (payloadOf x.file hdr).length = hdr.payloadBytes ∧ (tokens.length : Int) = i32 hdr.tokens

theorem agentKvReadText_eq_some {bytes text : List UInt8} {n : Nat} :
    agentKvReadText bytes n = some text ↔ textOf bytes n = text ∧ text.length = n := by
  unfold agentKvReadText
  dsimp only
  split
  · rename_i hlen
    rw [Option.some_inj]
    constructor
    · rintro rfl
      exact ⟨rfl, hlen⟩
    · exact fun h => h.1
  · rename_i hlen
    constructor
    · intro h
      cases h
    · rintro ⟨rfl, h⟩
      exact absurd h hlen

/-- **The checks** before the payload: only the quantization is not the file's own. -/
theorem Own.check {x : Saved} {hdr : Header} (h : Own sh cg su x hdr) (engine : Engine) :
    agentKvCheckFile engine (shaHexName x.name) none x.file =
      if x.quantBits = UInt8.ofNat engine.quantBits.toNat then some hdr else none := by
  have htext : agentKvReadText x.file hdr.textBytes = some x.text :=
    (agentKvReadText_eq_some).mpr ⟨h.text, h.length.symm⟩
  have hsha : shaHexName x.name = some (sha1BytesHex x.text) := shaHexName_pathForSha _
  unfold agentKvCheckFile
  rw [h.header]
  dsimp only
  rw [htext, hsha, h.quantBits]
  dsimp only
  by_cases hq : x.quantBits = UInt8.ofNat engine.quantBits.toNat
  · rw [if_neg (not_not.mpr hq), if_pos hq]
    simp
  · rw [if_pos hq, if_neg hq]

/-- **Who accepts the file**: the engines with its quantization. -/
theorem Own.accepts_iff {x : Saved} {hdr : Header} (h : Own sh cg su x hdr) {engine : Engine}
    {b : Session} (hb : b.WellFormed sh cg) (hsu : setupOf sh b = su) :
    Accepts sh cg engine b x.name x.file ↔ x.quantBits = UInt8.ofNat engine.quantBits.toNat := by
  unfold Accepts agentKvLoadFile
  rw [h.check engine]
  constructor
  · rintro ⟨b', hload⟩
    by_contra hq
    rw [if_neg hq] at hload
    cases hload
  · intro hq
    obtain ⟨tokens, hloads, hlen, htok⟩ := h.loads
    obtain ⟨fp', b', hload, hcheck⟩ := hloads b hb hsu (payloadSource x.file hdr) payloadOf_prefix
      hlen.symm
    have hfinal : (b'.host.checkpoint.length : Int) = i32 hdr.tokens := by rw [hcheck, htok]
    rw [if_pos hq]
    dsimp only
    rw [hload]
    exact ⟨b', if_pos hfinal⟩

theorem agentFile_eq (now : Nat) (engine : Engine) (s : Session) (tokens : List Int)
    (reason : Option String) (text payload : List UInt8) :
    ∃ start, start.length = 52 ∧
      agentFile sh now engine s tokens reason text payload = start ++ (text ++ payload) := by
  refine ⟨fillHeader (UInt8.ofNat engine.quantBits.toNat) (reasonCode reason) 0 tokens.length 0
    s.host.ctxSize now now (s.payloadBytes sh) ++ leBytes 4 text.length, ?_, ?_⟩
  · rw [List.length_append, fillHeader_length, leBytes_length, DS4_KVSTORE_FIXED_HEADER]
  · unfold agentFile
    rw [List.append_assoc, List.append_assoc]

/-- What a call checks before it writes its file. -/
structure Ready (sh : Shape) (op : Save sh cg su) (payload : List UInt8) : Prop where
  active : op.userActivity = true
  live : op.session.session.host.checkpoint = op.transcript
  quantBits : op.engine.quantBits = 2 ∨ op.engine.quantBits = 4
  text : op.text.length ≤ UINT32_MAX
  payloadBytes : op.session.session.payloadBytes sh ≠ 0
  payload : op.session.session.savePayload sh = .ok payload

/-- The file of the call. -/
def Save.file (sh : Shape) {cg : CtxGrow} {su : Setup} (op : Save sh cg su) (payload : List UInt8) :
    List UInt8 :=
  agentFile sh op.env.now op.engine op.session.session op.transcript (some "agent-session") op.text
    payload

/-- **A call** fails and leaves the directory, or writes its file and deletes. -/
theorem run_cases (op : Save sh cg su) (dir : Dir) :
    op.run dir = (false, dir) ∨ ∃ payload, Ready sh op payload ∧
      op.run dir = (true, agentKvDeletePrefixSessions op.env (sha1BytesHex op.text) op.text
        (dir.insert (pathForSha (sha1BytesHex op.text)) (op.file sh payload))) := by
  unfold Save.run agentWorkerSaveSessionNow
  by_cases hactive : op.userActivity = true
  swap
  · rw [if_pos (by simp [hactive])]
    exact Or.inl rfl
  · rw [if_neg (by simp [hactive])]
    by_cases hsync : op.synced = true
    swap
    · rw [if_neg hsync]
      exact Or.inl rfl
    · rw [if_pos hsync]
      dsimp only
      unfold agentKvSavePath
      by_cases hlive : op.session.session.host.checkpoint = op.transcript
      swap
      · rw [if_pos hlive]
        exact Or.inl rfl
      · rw [if_neg (not_not.mpr hlive)]
        by_cases hquant : op.engine.quantBits ≠ 2 ∧ op.engine.quantBits ≠ 4
        · rw [if_pos hquant]
          exact Or.inl rfl
        · rw [if_neg hquant]
          dsimp only
          by_cases htext : UINT32_MAX < (renderTokensText op.engine op.transcript).length
          · rw [if_pos htext]
            exact Or.inl rfl
          · rw [if_neg htext]
            by_cases hbytes : op.session.session.payloadBytes sh = 0
            · rw [if_pos hbytes]
              exact Or.inl rfl
            · rw [if_neg hbytes]
              cases hsave : op.session.session.savePayload sh with
              | error e => exact Or.inl rfl
              | ok payload =>
                exact Or.inr ⟨payload, ⟨hactive, hlive, by omega, Nat.le_of_not_lt htext, hbytes, hsave⟩,
                  rfl⟩

/-- A call that is ready and has its session synced goes through. -/
theorem run_of_ready {op : Save sh cg su} {payload : List UInt8} (h : Ready sh op payload)
    (hsync : op.synced = true) (dir : Dir) :
    op.run dir = (true, agentKvDeletePrefixSessions op.env (sha1BytesHex op.text) op.text
      (dir.insert (pathForSha (sha1BytesHex op.text)) (op.file sh payload))) := by
  have hq := h.quantBits
  have htext : ¬ UINT32_MAX < (renderTokensText op.engine op.transcript).length :=
    Nat.not_lt.mpr h.text
  unfold Save.run agentWorkerSaveSessionNow agentKvSavePath
  rw [if_neg (by simp [h.active]), if_pos hsync]
  dsimp only
  rw [if_neg (not_not.mpr h.live), if_neg (by omega), if_neg htext, if_neg h.payloadBytes, h.payload]
  rfl

/-- **The file is the call's own**, however it is remembered. -/
theorem own_of_ready {op : Save sh cg su} {payload : List UInt8} (h : Ready sh op payload) :
    ∃ hdr, Own sh cg su ⟨op.text, op.quantBits, op.file sh payload⟩ hdr := by
  have hv := op.session.valid (checkpointValid_of_payloadBytes h.payloadBytes)
  obtain ⟨hloads, hplen⟩ := loadsAs_savePayload hv h.payload
  have hloads' : LoadsAs sh cg su payload op.session.session.host.checkpoint := by
    rw [op.setup] at hloads
    exact hloads
  obtain ⟨hlen, hctx⟩ := valid_bounds hv
  have htext := h.text
  unfold UINT32_MAX at htext
  rw [h.live] at hlen
  have htok : op.transcript.length ≠ 0 := fun h0 =>
    op.active h.active (List.length_eq_zero_iff.mp h0)
  have hquant : op.quantBits = 2 ∨ op.quantBits = 4 := by
    unfold Save.quantBits
    rcases h.quantBits with hq | hq <;> rw [hq]
    · exact Or.inl rfl
    · exact Or.inr rfl
  -- the header, with the length of the text behind it
  have hread := @readHeader_fillHeader op.quantBits (reasonCode (some "agent-session")) 0
    op.transcript.length 0 op.session.session.host.ctxSize op.env.now op.env.now
    (op.session.session.payloadBytes sh) (leBytes 4 op.text.length ++ op.text ++ payload)
    hquant (reasonCode_le _) htok (by omega) (by omega) op.bytes_lt
    (by rw [List.length_append, List.length_append, leBytes_length]; omega)
  have htb : leValue ((leBytes 4 op.text.length ++ op.text ++ payload).take 4) = op.text.length := by
    rw [List.append_assoc, List.take_left' (leBytes_length 4 _), leValue_leBytes_of_lt (by omega)]
  rw [htb, ← List.append_assoc, ← List.append_assoc] at hread
  have hread' : readHeader (op.file sh payload) = _ := hread
  obtain ⟨start, hstart, hfile⟩ := @agentFile_eq sh op.env.now op.engine op.session.session
    op.transcript (some "agent-session") op.text payload
  have heq : op.file sh payload = start ++ (op.text ++ payload) := hfile
  refine ⟨_, ⟨hread', rfl, ?_, rfl, op.session.session.host.checkpoint, ?_, ?_, ?_⟩⟩
  · show textOf (op.file sh payload) op.text.length = op.text
    rw [heq, textOf, List.drop_left' hstart, List.take_left' rfl]
  · show LoadsAs sh cg su (((op.file sh payload).drop (52 + op.text.length)).take
      (op.session.session.payloadBytes sh)) _
    rw [heq, ← List.drop_drop, List.drop_left' hstart, List.drop_left' rfl,
      List.take_of_length_le (Nat.le_of_eq hplen)]
    exact hloads'
  · show (((op.file sh payload).drop (52 + op.text.length)).take
      (op.session.session.payloadBytes sh)).length = op.session.session.payloadBytes sh
    rw [heq, ← List.drop_drop, List.drop_left' hstart, List.drop_left' rfl,
      List.take_of_length_le (Nat.le_of_eq hplen), hplen]
  · show (op.session.session.host.checkpoint.length : Int) = i32 op.transcript.length
    rw [h.live, i32, if_pos (by omega)]

/-! ### The invariant -/

/-- A saved session whose file is still there stands for another one. -/
structure Covers (st : State) (y x : Saved) : Prop where
  mem : y ∈ st.saved
  file : st.dir.lookup y.name = some y.file
  text : x.text <+: y.text
  quantBits : y.quantBits = x.quantBits

/-- **The invariant**: every file was written as it should, and every session is covered. -/
def Inv (sh : Shape) (cg : CtxGrow) (su : Setup) (st : State) : Prop :=
  ∀ x ∈ st.saved, (∃ hdr, Own sh cg su x hdr) ∧ ∃ y, Covers st y x

/-- A session that covers one is there for all that it accepts. -/
theorem Inv.keepsSessions {st : State} (h : Inv sh cg su st) : KeepsSessions sh cg su st := by
  intro x hx
  obtain ⟨⟨hdr, hown⟩, y, hy⟩ := h x hx
  obtain ⟨hdr', hown'⟩ := (h y hy.mem).1
  refine ⟨y.name, y.file, hdr', hy.file, hown'.header, ?_, fun engine b hb hsu hacc => ?_⟩
  · rw [hown'.text]
    exact hy.text
  · rw [hown.accepts_iff hb hsu] at hacc
    rw [hown'.accepts_iff hb hsu, hy.quantBits]
    exact hacc

theorem sha_eq_of_pathForSha {text text' : List UInt8}
    (h : pathForSha (sha1BytesHex text) = pathForSha (sha1BytesHex text')) :
    sha1BytesHex text = sha1BytesHex text' := by
  have hsha := congrArg shaHexName h
  rw [shaHexName_pathForSha, shaHexName_pathForSha] at hsha
  exact Option.some.inj hsha

/-- The deletion spares the file that was just written. -/
theorem deletesFile_self (text bytes : List UInt8) :
    deletesFile (sha1BytesHex text) text (pathForSha (sha1BytesHex text)) bytes = false := by
  unfold deletesFile
  rw [shaHexName_pathForSha]
  exact if_pos rfl

/-- What is deleted has a text that the new one begins with. -/
theorem Own.prefix_of_deletesFile {x : Saved} {hdr : Header} (h : Own sh cg su x hdr)
    {sha text : List UInt8} (hdel : deletesFile sha text x.name x.file = true) : x.text <+: text := by
  have hread : agentKvReadText x.file hdr.textBytes = some x.text :=
    (agentKvReadText_eq_some).mpr ⟨h.text, h.length.symm⟩
  have hsha : shaHexName x.name = some (sha1BytesHex x.text) := shaHexName_pathForSha _
  unfold deletesFile at hdel
  rw [hsha] at hdel
  dsimp only at hdel
  split at hdel
  · cases hdel
  · rw [h.header] at hdel
    dsimp only at hdel
    rw [hread] at hdel
    rw [Bool.and_eq_true] at hdel
    exact List.isPrefixOf_iff_prefix.mp hdel.2

/-- What a call has saved, with the file that it has written. -/
def Save.savedAs (sh : Shape) {cg : CtxGrow} {su : Setup} (op : Save sh cg su) (payload : List UInt8) :
    Saved where
  text := op.text
  quantBits := op.quantBits
  file := op.file sh payload

/-- The directory after a call that went through: its own file, and what it does not delete. -/
theorem lookup_run {op : Save sh cg su} {payload : List UInt8} {dir dir' : Dir}
    (hrun : op.run dir = (true, dir'))
    (hdir : dir' = agentKvDeletePrefixSessions op.env (sha1BytesHex op.text) op.text
      (dir.insert (pathForSha (sha1BytesHex op.text)) (op.file sh payload))) :
    dir'.lookup (op.savedAs sh payload).name = some (op.file sh payload) ∧
      (∀ name, name ≠ (op.savedAs sh payload).name → dir'.lookup name =
        (dir.lookup name).filter fun bytes =>
          !deletesFile (sha1BytesHex op.text) op.text name bytes) ∧
      ∀ st : State, st.dir = dir →
        step st op = { dir := dir', saved := op.savedAs sh payload :: st.saved } := by
  have hself : dir'.lookup (pathForSha (sha1BytesHex op.text)) = some (op.file sh payload) := by
    rw [hdir, lookup_deletePrefixSessions, AList.lookup_insert, Option.filter_some, deletesFile_self]
    rfl
  refine ⟨hself, fun name hname => ?_, fun st hst => ?_⟩
  · have hne : name ≠ pathForSha (sha1BytesHex op.text) := hname
    rw [hdir, lookup_deletePrefixSessions, AList.lookup_insert_ne hne]
  · unfold step
    rw [hst, hrun]
    unfold Save.saved
    dsimp only
    rw [hself]
    rfl

/-- **The new session covers** what a call deletes or writes over; what it leaves is covered as
    before. -/
theorem inv_step {st : State} (h : Inv sh cg su st) {op : Save sh cg su} (hop : Spares st op) :
    Inv sh cg su (step st op) := by
  obtain hrun | ⟨payload, hready, hrun⟩ := run_cases op st.dir
  · have hst : step st op = st := by
      unfold step
      rw [hrun]
    rw [hst]
    exact h
  · obtain ⟨hself, hothers, hstep⟩ := lookup_run hrun rfl
    have hst := hstep st rfl
    -- the new session covers every one whose text it begins with
    have hnew : ∀ x : Saved, x.text <+: op.text → x.quantBits = op.quantBits →
        Covers (step st op) (op.savedAs sh payload) x := by
      intro x htext hquant
      rw [hst]
      exact ⟨List.mem_cons_self, hself, htext, hquant.symm⟩
    intro x hx
    rw [hst] at hx
    rcases List.mem_cons.mp hx with rfl | hx
    · exact ⟨own_of_ready hready, _, hnew _ (List.prefix_refl _) rfl⟩
    · obtain ⟨hxown, y, hy⟩ := h x hx
      obtain ⟨hdr, hown⟩ := (h y hy.mem).1
      obtain ⟨hquant, hsha⟩ := hop y hy.mem hy.file
      refine ⟨hxown, ?_⟩
      by_cases hpre : y.text <+: op.text
      · exact ⟨_, hnew x (hy.text.trans hpre) (hy.quantBits.symm.trans (hquant hpre))⟩
      -- otherwise its name is another one, and it is not deleted
      · have hname : y.name ≠ (op.savedAs sh payload).name := fun hn =>
          hpre (hsha (sha_eq_of_pathForSha hn) ▸ List.prefix_refl _)
        have hdel : deletesFile (sha1BytesHex op.text) op.text y.name y.file = false :=
          Bool.eq_false_iff.mpr fun hd => hpre (hown.prefix_of_deletesFile hd)
        refine ⟨y, ?_⟩
        rw [hst]
        refine ⟨List.mem_cons_of_mem _ hy.mem, ?_, hy.text, hy.quantBits⟩
        dsimp only
        rw [hothers _ hname, hy.file, Option.filter_some, hdel]
        rfl

/-- **Saving loses no session**, in every run of calls that meet the condition. -/
theorem saves_keep_sessions {dir : Dir} {ops : List (Save sh cg su)}
    (h : Guarded step Spares ⟨dir, []⟩ ops) :
    KeepsSessions sh cg su (ops.foldl step ⟨dir, []⟩) := by
  have hstart : Inv sh cg su ⟨dir, []⟩ := fun x hx => absurd hx List.not_mem_nil
  exact (h.invariant (fun _ _ hinv hop => inv_step hinv hop) hstart).keepsSessions

/-! #### One quantization, and two -/

/-- An engine with this quantization. -/
def engineOf (quantBits : Int) : Engine where
  quantBits := quantBits
  tokenText := fun _ => [0x61]
  tokenizeRenderedChat := fun _ => []

/-- A session of one token is saved by such an engine. -/
def saveToken (quantBits : Int) : Save flash ⟨false, 0⟩ (setupOf flash liveToken.session) where
  env := plainEnv
  engine := engineOf quantBits
  userActivity := true
  session := liveToken
  setup := rfl
  bytes_lt := by
    rw [payloadBytes_liveToken]
    decide
  synced := true
  transcript := [7]
  active := fun _ => List.cons_ne_nil _ _

/-- The save goes through, and its file is there. -/
theorem ready_saveToken {q : Int} (hq : q = 2 ∨ q = 4) :
    ∃ payload, Ready flash (saveToken q) payload := by
  refine ⟨_, rfl, rfl, hq, ?_, ?_, (Session.Valid.saved (liveToken.valid rfl)).save⟩
  · exact (by decide : 1 ≤ UINT32_MAX)
  · show liveToken.session.payloadBytes flash ≠ 0
    rw [payloadBytes_liveToken]
    decide

/-- One such save keeps its session. -/
theorem saves_keep_sessions_one :
    KeepsSessions flash ⟨false, 0⟩ (setupOf flash liveToken.session)
      ([saveToken 2].foldl step ⟨∅, []⟩) :=
  saves_keep_sessions ⟨fun _ hx => absurd hx List.not_mem_nil, trivial⟩

/-- The engine with 4 bits saves, then the one with 2 bits saves the same conversation: the first
    session is lost. -/
theorem not_keepsSessions_otherQuant :
    ¬ KeepsSessions flash ⟨false, 0⟩ (setupOf flash liveToken.session)
      ([saveToken 4, saveToken 2].foldl step ⟨∅, []⟩) := by
  intro hkeeps
  obtain ⟨p4, h4⟩ := ready_saveToken (Or.inr rfl : (4 : Int) = 2 ∨ (4 : Int) = 4)
  obtain ⟨p2, h2⟩ := ready_saveToken (Or.inl rfl : (2 : Int) = 2 ∨ (2 : Int) = 4)
  obtain ⟨-, hothers4, hstep4⟩ := lookup_run (run_of_ready h4 rfl ∅) rfl
  obtain ⟨hself2, hothers2, hstep2⟩ := lookup_run (run_of_ready h2 rfl
    (step ⟨∅, []⟩ (saveToken 4)).dir) rfl
  rw [List.foldl_cons, List.foldl_cons, List.foldl_nil, hstep2 _ rfl] at hkeeps
  rw [hstep4 ⟨∅, []⟩ rfl] at hkeeps hothers2 hself2
  obtain ⟨hdr4, hown4⟩ := own_of_ready h4
  obtain ⟨hdr2, hown2⟩ := own_of_ready h2
  obtain ⟨nm, bytes, hdr, hlook, -, -, hacc⟩ := hkeeps ((saveToken 4).savedAs flash p4)
    (List.mem_cons_of_mem _ List.mem_cons_self)
  dsimp only at hlook
  -- the only file is the second one
  by_cases hname : nm = ((saveToken 2).savedAs flash p2).name
  · subst hname
    rw [hself2] at hlook
    cases hlook
    have hwf := liveToken.wellFormed
    have h2acc := hacc (engineOf 4) liveToken.session hwf rfl ((hown4.accepts_iff hwf rfl).mpr rfl)
    have hquant : (2 : UInt8) = 4 := (hown2.accepts_iff hwf rfl).mp h2acc
    cases hquant
  · rw [hothers2 _ hname] at hlook
    dsimp only at hlook
    rw [hothers4 _ hname, AList.lookup_empty] at hlook
    cases hlook

end DS4.Agent
