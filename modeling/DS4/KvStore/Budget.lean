import DS4.KvStore.Written
import DS4.Lib.Run

namespace DS4.KvStore

/-!
# The KV cache — the budget over whole runs

Room is made when a cache is opened and after a new file is written.  A store that finds its text
already there makes no room, although the trailer that it writes may be longer than the old one.

* `Op`, `step` — the operations on a cache directory, by one process.
* `Keeps` — the stores after which the budget holds; `budget_run`.
* `not_withinBudget_restored` — a run in which a trailer is written again.
-/

open DS4.Lib DS4.Checkpoint

variable {sh : Shape} {cg : CtxGrow} {env : Env} {engine : Engine} {kc : Store} {s : Session}
  {r : StoreRequest} {dir dir' : Dir} {name : Name}

/-! ### Runs -/

/-- A cache and its directory; `stored` is the file of the last operation, if that was a store which
    returned true. -/
structure State where
  kc : Store
  dir : Dir
  stored : Option Name

/-- The operations of one process on a cache directory. -/
inductive Op (sh : Shape) (cg : CtxGrow) where
  | openCache (env : Env) (budgetMb : Nat) (rejectDifferentQuant : Bool) (opt : Options)
  | store (env : Env) (engine : Engine) (s : LiveSession sh cg) (r : StoreRequest)
  | load (env : Env) (engine : Engine) (prompt : List UInt8) (s : LiveSession sh cg)

/-- One operation; a load that writes past a buffer leaves the directory alone. -/
def step (st : State) : Op sh cg → State
  | .openCache env budgetMb reject opt =>
    let (kc, dir) := openCache env budgetMb reject opt st.dir
    { kc := kc, dir := dir, stored := none }
  | .store env engine s r =>
    let (ok, dir) := storeLivePrefixText sh env engine st.kc s.session r st.dir
    { kc := st.kc, dir := dir, stored := if ok then some (storeName engine r) else none }
  | .load env engine prompt s =>
    match tryLoadText sh cg env engine st.kc prompt s.session st.dir st.dir with
    | none   => { st with stored := none }
    | some o => { kc := o.kc, dir := o.dir, stored := none }

/-- No cache is open on the directory. -/
def closed (dir : Dir) : State where
  kc := { enabled := false, budgetBytes := 0, rejectDifferentQuant := false,
          opt := { minTokens := 0, coldMaxTokens := 0 }, continuedLastStoreTokens := 0 }
  dir := dir
  stored := none

/-- What is wanted after an operation: a file that was stored is there, and the files fit. -/
def WithinBudget (st : State) : Prop :=
  ∀ name, st.stored = some name →
    kvBytes st.dir ≤ st.kc.budgetBytes ∧ (st.dir.lookup name).isSome = true

/-- The trailer that a store writes anew in place leaves the files within the budget. -/
def TrailerFits (kc : Store) (dir : Dir) (engine : Engine) (r : StoreRequest) (ctxSize : Nat) : Prop :=
  ∀ bytes e hooks, dir.lookup (storeName engine r) = some bytes →
    readEntryFile (storeName engine r) (sha1BytesHex (storeText engine r)) bytes = some e →
    compatible kc (sha1BytesHex (storeText engine r)) (storeText engine r) engine.quantBits ctxSize e
      bytes = true →
    rewriteHooks r.hooks (storeText engine r) = some hooks →
    kvBytes dir + (52 + e.textBytes + e.payloadBytes +
      (trailerWrite (some hooks) (storeText engine r)).2.1.length) ≤ kc.budgetBytes + bytes.length

/-- The hooks report what they write. -/
def HonestTrailer (engine : Engine) (r : StoreRequest) : Prop :=
  (trailerWrite r.hooks (storeText engine r)).2.2 =
    (trailerWrite r.hooks (storeText engine r)).2.1.length

/-- The operations that keep the budget: a budget is positive, a file that is stored has a token,
    sizes do not reach 2^64, and a trailer that is written in place leaves the files within the
    budget. -/
def Keeps (st : State) : Op sh cg → Prop
  | .openCache env budgetMb reject opt =>
    0 < (openCache env budgetMb reject opt st.dir).1.budgetBytes ∧ kvBytes st.dir ≤ UINT64_MAX
  | .store _ engine s r =>
    tokensCopyPrefix r.tokens r.storeLen ≠ [] ∧ HonestTrailer engine r ∧
      kvBytes st.dir + (52 + (storeText engine r).length + s.session.payloadBytes sh +
        (trailerWrite r.hooks (storeText engine r)).2.1.length) ≤ UINT64_MAX ∧
      TrailerFits st.kc st.dir engine r s.session.host.ctxSize
  | .load .. => True

/-- The invariant of a run. -/
structure Inv (st : State) : Prop where
  clean : Clean st.dir
  budget : st.kc.enabled = true → 0 < st.kc.budgetBytes ∧ kvBytes st.dir ≤ st.kc.budgetBytes
  stored : WithinBudget st

/-! ### Steps -/

theorem kvBytes_erase_le (dir : Dir) (name : Name) : kvBytes (dir.erase name) ≤ kvBytes dir :=
  weigh_erase_le

theorem kvSize_storeName (bytes : List UInt8) : kvSize (storeName engine r) bytes = bytes.length := by
  rw [kvSize, storeName, shaHexName_pathForSha]
  rfl

theorem cleanFile_storeName (engine : Engine) (r : StoreRequest) {e : Header} {bytes : List UInt8}
    (h : Whole e bytes) : CleanFile (storeName engine r) bytes := by
  intro sha hsha
  rw [storeName, shaHexName_pathForSha] at hsha
  cases hsha
  exact ⟨rfl, e, h⟩

/-- A file replaced by one that is as whole. -/
theorem Clean.replace (h : Clean dir) {bytes bytes' : List UInt8} (hlook : dir.lookup name = some bytes)
    (hwhole : ∀ e, Whole e bytes → ∃ e', Whole e' bytes') : Clean (dir.insert name bytes') := by
  refine h.insert fun sha hsha => ?_
  obtain ⟨hname, e, he⟩ := h name bytes hlook sha hsha
  exact ⟨hname, hwhole e he⟩

theorem kvBytes_replace {bytes bytes' : List UInt8} (hlook : dir.lookup name = some bytes)
    (hlen : bytes'.length = bytes.length) : kvBytes (dir.insert name bytes') = kvBytes dir := by
  have hsum := weigh_insert_of_lookup kvSize bytes' hlook
  have hsize : kvSize name bytes' = kvSize name bytes := by
    unfold kvSize
    rw [hlen]
  unfold kvBytes
  omega

/-- A touch changes no size. -/
theorem touch_spec (hclean : Clean dir) (now : Nat) (name : Name) (hits : Nat) :
    Clean (touch now name hits dir) ∧ kvBytes (touch now name hits dir) = kvBytes dir := by
  unfold touch
  split
  · exact ⟨hclean, rfl⟩
  · rename_i bytes hlook
    refine ⟨hclean.replace hlook fun e he => ?_, kvBytes_replace hlook ?_⟩
    · obtain ⟨e', he'⟩ := (rewritten_touchFile he hits now).1
      exact ⟨e', he'.whole⟩
    · cases hread : readHeader bytes with
      | none => rw [touchFile, hread]
      | some e =>
        have hr := (readHeader_eq_some_iff).mp hread
        have hlen := hr.length
        rw [touchFile, hread]
        dsimp only
        rw [List.length_append, fillHeader_length, List.length_drop]
        omega

/-- **A load** makes no file longer. -/
theorem inv_load {st : State} (h : Inv st) (env : Env) (engine : Engine) (prompt : List UInt8)
    (s : LiveSession sh cg) : Inv (step st (.load env engine prompt s)) := by
  unfold step
  dsimp only
  split
  · exact ⟨h.clean, h.budget, fun name hn => by cases hn⟩
  · rename_i o ho
    obtain ⟨hdir, hkc⟩ := tryLoadText_dir ho
    have hkeep : Clean o.dir ∧ kvBytes o.dir ≤ kvBytes st.dir := by
      obtain hd | ⟨e, -, hd | ⟨hits, hd⟩⟩ := hdir <;> rw [hd]
      · exact ⟨h.clean, Nat.le_refl _⟩
      · exact ⟨h.clean.erase e.name, kvBytes_erase_le st.dir e.name⟩
      · obtain ⟨hc, hs⟩ := touch_spec h.clean env.now e.name hits
        exact ⟨hc, Nat.le_of_eq hs⟩
    have hen : o.kc.enabled = st.kc.enabled ∧ o.kc.budgetBytes = st.kc.budgetBytes := by
      obtain hk | hk := hkc <;> rw [hk] <;> exact ⟨rfl, rfl⟩
    refine ⟨hkeep.1, fun he => ?_, fun name hn => by cases hn⟩
    obtain ⟨hpos, hle⟩ := h.budget (hen.1.symm.trans he)
    rw [hen.2]
    exact ⟨hpos, hkeep.2.trans hle⟩

/-- **Opening** makes room. -/
theorem inv_openCache {st : State} (h : Inv st) (env : Env) {budgetMb : Nat} (reject : Bool)
    (opt : Options) (hpos : 0 < (openCache env budgetMb reject opt st.dir).1.budgetBytes)
    (hwrap : kvBytes st.dir ≤ UINT64_MAX) :
    Inv (step st (.openCache env budgetMb reject opt : Op sh cg)) where
  clean := h.clean.evict none
  budget := fun _ => ⟨hpos, kvBytes_evict h.clean rfl hpos hwrap none⟩
  stored := fun name hn => by cases hn

/-- The new file is an entry, and the only one with its digest. -/
theorem mem_refresh_storeFile (engine : Engine) (r : StoreRequest) (hclean : Clean dir)
    {e : Header} {bytes : List UInt8} (hw : Whole e bytes) (env : Env) :
    let d := dir.insert (storeName engine r) bytes
    let x : Entry := { e with sha := sha1BytesHex (storeText engine r), name := storeName engine r,
                              fileSize := bytes.length }
    x ∈ refresh env d ∧ ∀ y ∈ refresh env d, y.sha = x.sha → y = x := by
  intro d x
  have hmem : x ∈ refresh env d := by
    refine (mem_refresh).mpr ⟨⟨storeName engine r, bytes⟩, AList.lookup_insert _, ?_⟩
    unfold entryOf
    rw [show shaHexName (storeName engine r) = _ from shaHexName_pathForSha _]
    exact (readEntryFile_eq_some_iff).mpr ⟨hw, rfl, rfl, rfl⟩
  refine ⟨hmem, fun y hy hsha => ?_⟩
  obtain ⟨bytes', hlook, hy40, -, -⟩ := of_mem_refresh hy
  have hname := ((hclean.insert (cleanFile_storeName engine r hw)) y.name bytes' hlook y.sha hy40).1
  rw [hsha] at hname
  exact List.inj_on_of_nodup_map (nodup_names_refresh env d) hy hmem hname

/-- **A new file** is there afterwards, and the rest fits. -/
theorem storeNew_spec {st : State} (h : Inv st) (env : Env) (engine : Engine) (s : LiveSession sh cg)
    (r : StoreRequest) {est : Nat} {dir' : Dir} {payload : List UInt8}
    (hready : StoreReady sh engine st.kc s.session r est)
    (hnew : StoreNew sh env engine st.kc s.session r est st.dir dir' payload)
    (hne : tokensCopyPrefix r.tokens r.storeLen ≠ []) (hhonest : HonestTrailer engine r)
    (hwrap : kvBytes st.dir + (52 + (storeText engine r).length + s.session.payloadBytes sh +
        (trailerWrite r.hooks (storeText engine r)).2.1.length) ≤ UINT64_MAX) :
    Clean dir' ∧ kvBytes dir' ≤ st.kc.budgetBytes ∧
      (dir'.lookup (storeName engine r)).isSome = true := by
  have hv := s.valid (checkpointValid_of_payloadBytes hready.payloadBytes)
  have hpayload : payload.length = s.session.payloadBytes sh := by
    have hsave := hnew.save
    rw [hv.saved.save] at hsave
    cases hsave
    exact hv.saved.bytes.symm
  obtain ⟨x, hw⟩ := whole_storeFile hready hv hne env.now hpayload
    (trailerWrite r.hooks (storeText engine r)).2.1
  have hlen := @storeFile_length sh engine s.session r env.now est payload
    (trailerWrite r.hooks (storeText engine r)).2.1
  obtain ⟨dir₁, hdir₁, hdir'⟩ := hnew.dir_eq
  generalize storeFile sh env.now engine s.session r est payload
    (trailerWrite r.hooks (storeText engine r)).2.1 = file at hw hlen hdir'
  obtain ⟨hpos, hbudget⟩ := h.budget hready.enabled
  have hclean₁ : Clean dir₁ ∧ kvBytes dir₁ ≤ kvBytes st.dir := by
    obtain rfl | rfl := hdir₁
    · exact ⟨h.clean, Nat.le_refl _⟩
    · exact ⟨h.clean.erase _, kvBytes_erase_le ..⟩
  have hins : kvBytes (dir₁.insert (storeName engine r) file) ≤ kvBytes st.dir + file.length := by
    have hsum := @weigh_insert _ _ _ kvSize dir₁ (storeName engine r) file
    have hle := kvBytes_erase_le dir₁ (storeName engine r)
    rw [kvSize_storeName] at hsum
    unfold kvBytes at hle ⊢
    have hle₁ := hclean₁.2
    unfold kvBytes at hle₁
    omega
  have hclean := hclean₁.1.insert (cleanFile_storeName engine r hw)
  have hfits := (le_of_fileSizeFits hnew.fits).2 hpos
  rw [hhonest] at hfits
  have hle₁ := hclean₁.2
  rw [hdir']
  refine ⟨hclean.evict _, kvBytes_evict hclean hready.enabled hpos (by omega) _, ?_⟩
  obtain ⟨hmem, hunique⟩ := mem_refresh_storeFile engine r hclean₁.1 hw env
  have hstay := lookup_evict_protected st.kc hmem (show 0 < file.length by omega)
    (show file.length ≤ _ by omega) hunique (by rw [hclean.sum_refresh env]; omega)
  have hthere : (evict env st.kc (some (sha1BytesHex (storeText engine r)))
      (dir₁.insert (storeName engine r) file)).lookup (storeName engine r) = some file :=
    hstay.trans (AList.lookup_insert _)
  rw [hthere]
  rfl

/-- **A file that was there** stays, with a trailer that fits. -/
theorem storeKept_spec {st : State} (h : Inv st) (env : Env) (engine : Engine) (s : LiveSession sh cg)
    (r : StoreRequest) {dir' : Dir} {bytes : List UInt8} {e : Entry} (hen : st.kc.enabled = true)
    (hkept : StoreKept sh env engine st.kc s.session r st.dir dir' bytes e)
    (hfits : TrailerFits st.kc st.dir engine r s.session.host.ctxSize) :
    Clean dir' ∧ kvBytes dir' ≤ st.kc.budgetBytes ∧
      (dir'.lookup (storeName engine r)).isSome = true := by
  obtain ⟨-, hbudget⟩ := h.budget hen
  have hw := ((readEntryFile_eq_some_iff).mp hkept.entry).1
  have hdir := hkept.dir_eq
  unfold rewriteTrailer at hdir
  rw [hkept.lookup] at hdir
  cases hhooks : rewriteHooks r.hooks (storeText engine r) with
  -- there is no trailer to write
  | none =>
    rw [hhooks] at hdir
    rw [hdir, hkept.lookup]
    exact ⟨h.clean, hbudget, rfl⟩
  | some hooks =>
    rw [hhooks] at hdir
    have hroom := hfits bytes e hooks hkept.lookup hkept.entry hkept.compatible hhooks
    have hlen := (rewritten_withTrailer hw env.now hooks (storeText engine r)).2
    have hclean : Clean dir' := by
      rw [hdir]
      refine h.clean.replace hkept.lookup fun e' he' => ?_
      obtain ⟨e'', he''⟩ := (rewritten_withTrailer he' env.now hooks (storeText engine r)).1
      exact ⟨e'', he''.whole⟩
    have hsum := weigh_insert_of_lookup kvSize
      (withTrailer env.now hooks (storeText engine r) bytes) hkept.lookup
    rw [kvSize_storeName, kvSize_storeName] at hsum
    refine ⟨hclean, ?_, ?_⟩
    · rw [hdir]
      unfold kvBytes at hroom hbudget ⊢
      dsimp only
      split at hlen <;> omega
    · rw [hdir]
      dsimp only
      rw [AList.lookup_insert]
      rfl

theorem step_store_kc (st : State) (env : Env) (engine : Engine) (s : LiveSession sh cg)
    (r : StoreRequest) : (step st (.store env engine s r)).kc = st.kc := rfl

/-- **A store** keeps the invariant, if it meets the condition. -/
theorem inv_store {st : State} (h : Inv st) (env : Env) (engine : Engine) (s : LiveSession sh cg)
    (r : StoreRequest) (hgood : Keeps st (.store env engine s r)) :
    Inv (step st (.store env engine s r)) := by
  obtain ⟨hne, hhonest, hwrap, hfits⟩ := hgood
  have hcases : ∀ ok dir', storeLivePrefixText sh env engine st.kc s.session r st.dir = (ok, dir') →
      Clean dir' ∧ (st.kc.enabled = true → kvBytes dir' ≤ st.kc.budgetBytes) ∧
        (ok = true → kvBytes dir' ≤ st.kc.budgetBytes ∧
          (dir'.lookup (storeName engine r)).isSome = true) := by
    intro ok dir' hstore
    obtain ⟨rfl, hfail⟩ | ⟨rfl, est, hready, ⟨bytes, e, hkept⟩ | ⟨payload, hnew⟩⟩ := store_cases hstore
    · have hkeep : Clean dir' ∧ kvBytes dir' ≤ kvBytes st.dir := by
        obtain rfl | rfl := hfail
        · exact ⟨h.clean, Nat.le_refl _⟩
        · exact ⟨h.clean.erase _, kvBytes_erase_le ..⟩
      exact ⟨hkeep.1, fun hen => hkeep.2.trans (h.budget hen).2, fun h0 => by cases h0⟩
    · obtain ⟨hc, hb, hl⟩ := storeKept_spec h env engine s r hready.enabled hkept hfits
      exact ⟨hc, fun _ => hb, fun _ => ⟨hb, hl⟩⟩
    · obtain ⟨hc, hb, hl⟩ := storeNew_spec h env engine s r hready hnew hne hhonest hwrap
      exact ⟨hc, fun _ => hb, fun _ => ⟨hb, hl⟩⟩
  unfold step
  dsimp only
  generalize hstore : storeLivePrefixText sh env engine st.kc s.session r st.dir = res at hcases ⊢
  obtain ⟨ok, dir'⟩ := res
  obtain ⟨hc, hb, hl⟩ := hcases ok dir' rfl
  refine ⟨hc, fun hen => ⟨(h.budget hen).1, hb hen⟩, fun name hn => ?_⟩
  cases ok with
  | false => cases hn
  | true =>
    cases hn
    exact hl rfl

/-- The invariant holds after a run. -/
theorem inv_run {dir : Dir} {ops : List (Op sh cg)} (hclean : Clean dir)
    (hops : Guarded step Keeps (closed dir) ops) : Inv (ops.foldl step (closed dir)) := by
  have hstart : Inv (closed dir) := ⟨hclean, (fun h => by cases h), (fun name h => by cases h)⟩
  refine hops.invariant (fun st op h hgood => ?_) hstart
  cases op with
  | openCache env budgetMb reject opt => exact inv_openCache h env reject opt hgood.1 hgood.2
  | store env engine s r => exact inv_store h env engine s r hgood
  | load env engine prompt s => exact inv_load h env engine prompt s

/-- **The budget** over whole runs: when every operation meets the condition, the files fit after
    every store that returned true, and the file that was stored is there. -/
theorem budget_run {dir : Dir} {ops : List (Op sh cg)} (hclean : Clean dir)
    (hops : Guarded step Keeps (closed dir) ops) : WithinBudget (ops.foldl step (closed dir)) :=
  (inv_run hclean hops).stored

/-! ### A trailer that does not fit -/

/-- A new file without a trailer, where the others leave room. -/
theorem storeLivePrefixText_new {kc : Store} {dir : Dir} (h : Clean dir) (env : Env) (engine : Engine)
    (s : LiveSession sh cg) (r : StoreRequest) {est : Nat} {payload : List UInt8}
    (hready : StoreReady sh engine kc s.session r est) (hsave : s.session.savePayload sh = .ok payload)
    (hlen : payload.length = s.session.payloadBytes sh)
    (hne : tokensCopyPrefix r.tokens r.storeLen ≠ []) (hhooks : r.hooks = none)
    (hno : dir.lookup (storeName engine r) = none) (hbudget : kc.budgetBytes ≤ UINT64_MAX)
    (hroom : kvBytes dir + (52 + (storeText engine r).length + s.session.payloadBytes sh) ≤
      kc.budgetBytes) :
    storeLivePrefixText sh env engine kc s.session r dir =
      (true, dir.insert (storeName engine r)
        (storeFile sh env.now engine s.session r est payload [])) := by
  have hv := s.valid (checkpointValid_of_payloadBytes hready.payloadBytes)
  obtain ⟨x, hw⟩ := whole_storeFile hready hv hne env.now hlen []
  have hfile := @storeFile_length sh engine s.session r env.now est payload []
  have hclean := h.insert (cleanFile_storeName engine r hw)
  have hsum : kvBytes (dir.insert (storeName engine r)
      (storeFile sh env.now engine s.session r est payload [])) =
        (storeFile sh env.now engine s.session r est payload []).length + kvBytes dir := by
    unfold kvBytes
    rw [weigh_insert, erase_of_lookup_none hno, kvSize_storeName]
  rw [List.length_nil] at hfile
  have hex : existingCompatible kc (storeName engine r) (sha1BytesHex (storeText engine r))
      (storeText engine r) engine.quantBits s.session.host.ctxSize dir = (false, dir) := by
    unfold existingCompatible
    rw [hno]
  have hwrite : trailerWrite r.hooks (storeText engine r) = (true, [], 0) := by
    rw [hhooks]
    rfl
  have hfits : fileSizeFits kc (storeText engine r).length (s.session.payloadBytes sh) 0 = true := by
    have hsize := hready.size
    rw [hhooks] at hsize
    obtain rfl : 0 = est := Option.some.inj hsize
    exact hready.fits
  have hsame := @evict_eq_self env kc _ hclean (by omega) (by omega)
    (some (sha1BytesHex (storeText engine r)))
  rw [storeLivePrefixText_of_ready hready, hex]
  dsimp only
  unfold storeNew
  rw [hsave]
  dsimp only
  rw [hwrite]
  dsimp only
  rw [hfits, if_neg (by decide), if_neg (by decide)]
  exact congrArg (Prod.mk true) hsame

/-- The step of such a store. -/
theorem step_store_new {st : State} (h : Inv st) (env : Env) (engine : Engine) (s : LiveSession sh cg)
    (r : StoreRequest) {est : Nat} {payload : List UInt8}
    (hready : StoreReady sh engine st.kc s.session r est)
    (hsave : s.session.savePayload sh = .ok payload)
    (hlen : payload.length = s.session.payloadBytes sh)
    (hne : tokensCopyPrefix r.tokens r.storeLen ≠ []) (hhooks : r.hooks = none)
    (hno : st.dir.lookup (storeName engine r) = none) (hbudget : st.kc.budgetBytes ≤ UINT64_MAX)
    (hroom : kvBytes st.dir + (52 + (storeText engine r).length + s.session.payloadBytes sh) ≤
      st.kc.budgetBytes) :
    step st (.store env engine s r) =
      { kc := st.kc
        dir := st.dir.insert (storeName engine r)
          (storeFile sh env.now engine s.session r est payload [])
        stored := some (storeName engine r) } := by
  have hstore := storeLivePrefixText_new h.clean env engine s r hready hsave hlen hne hhooks hno
    hbudget hroom
  simp only [step, hstore]
  rfl

/-! #### A run with such a trailer -/

/-- A directory listed in its own order, and a score that is the same for all files. -/
def plainEnv : Env where
  list := id
  list_perm := id_perm
  now := 0
  score := fun _ => 0
  score_lt := zero_lt_DBL_MAX

/-- An engine that renders nothing. -/
def plainEngine : Engine where
  quantBits := 2
  tokenText := fun _ => []
  tokenizeRenderedChat := fun _ => []

/-- The session after one token, on the CPU. -/
def liveToken : LiveSession flash ⟨false, 0⟩ where
  session := .cpu Session.oneToken
  wellFormed := (Session.valid_oneToken).toWellFormed
  valid := fun _ => Session.valid_oneToken

/-- A store of that session under a text. -/
def request (text : List UInt8) (hooks : Option TrailerHooks) : StoreRequest where
  tokens := [7]
  storeLen := 1
  reason := some "cold"
  cacheTextOverride := some text
  cacheTextExt := 0
  hooks := hooks

/-- Hooks with a trailer of 2 MiB. -/
def longTrailer : TrailerHooks where
  extFlag := 1
  serializedSize := some fun _ => some 2097152
  write := some fun _ => (true, List.replicate 2097152 0, 2097152)

/-- The operations: a cache of 26 MiB is opened, two texts are stored, and the second again, now with
    a trailer. -/
def restoredOps : List (Op flash ⟨false, 0⟩) :=
  [.openCache plainEnv 26 false ⟨1, 0⟩,
   .store plainEnv plainEngine liveToken (request [0x61] none),
   .store plainEnv plainEngine liveToken (request [0x62] none),
   .store plainEnv plainEngine liveToken (request [0x62] (some longTrailer))]

/-- The cache that is opened. -/
def cache26 : Store := (openCache plainEnv 26 false ⟨1, 0⟩ ∅).1

theorem payloadBytes_liveToken : liveToken.session.payloadBytes flash = 12811664 := by
  decide +kernel

theorem storeReady_request {text : List UInt8} {hooks : Option TrailerHooks} {est : Nat}
    (htext : storeText plainEngine (request text hooks) = text) (hlen : text.length = 1)
    (hsize : trailerSerializedSize hooks text = some est)
    (hfits : fileSizeFits cache26 1 12811664 est = true) :
    StoreReady flash plainEngine cache26 liveToken.session (request text hooks) est where
  enabled := rfl
  minTokens := Int.le_refl 1
  quantBits := Or.inl rfl
  live := rfl
  payloadBytes := by
    rw [payloadBytes_liveToken]
    decide
  text := by
    rw [htext, hlen]
    decide
  size := by
    rw [htext]
    exact hsize
  fits := by
    rw [htext, hlen, payloadBytes_liveToken]
    exact hfits

theorem ready_a : StoreReady flash plainEngine cache26 liveToken.session (request [0x61] none) 0 :=
  storeReady_request rfl rfl rfl (by decide +kernel)

theorem ready_b : StoreReady flash plainEngine cache26 liveToken.session (request [0x62] none) 0 :=
  storeReady_request rfl rfl rfl (by decide +kernel)

theorem ready_b_again : StoreReady flash plainEngine cache26 liveToken.session
    (request [0x62] (some longTrailer)) 2097152 :=
  storeReady_request rfl rfl rfl (by decide +kernel)

/-- Without hooks there is nothing to write in place. -/
theorem trailerFits_none {text : List UInt8} (kc : Store) (dir : Dir) (ctxSize : Nat) :
    TrailerFits kc dir plainEngine (request text none) ctxSize := by
  intro bytes e hooks _ _ _ hhooks
  cases hhooks

theorem clean_empty : Clean ∅ := fun name bytes h => by
  rw [AList.lookup_empty] at h
  cases h

theorem start_spec : step (closed ∅)
    (.openCache plainEnv 26 false ⟨1, 0⟩ : Op flash ⟨false, 0⟩) =
      { kc := cache26, dir := ∅, stored := none } := by
  have hsame := @evict_eq_self plainEnv cache26 ∅ clean_empty (Nat.zero_le _) (Nat.zero_le _) none
  exact congrArg (fun d => State.mk cache26 d none) hsame

/-- A store of one byte of text meets the condition, while there is room in 64 bits. -/
theorem keeps_request {text : List UInt8} {st : State}
    (htext : storeText plainEngine (request text none) = text) (hlen : text.length = 1)
    (hbytes : kvBytes st.dir ≤ 27262976) :
    Keeps st (.store plainEnv plainEngine liveToken (request text none)) := by
  refine ⟨List.cons_ne_nil _ _, rfl, ?_, trailerFits_none _ _ _⟩
  show kvBytes st.dir + (52 + (storeText plainEngine (request text none)).length +
    liveToken.session.payloadBytes flash + 0) ≤ UINT64_MAX
  rw [htext, hlen, payloadBytes_liveToken]
  unfold UINT64_MAX
  omega

/-- The cache is open. -/
theorem inv_start : Inv { kc := cache26, dir := ∅, stored := none } := by
  have hstart : Inv (closed ∅) := ⟨clean_empty, (fun h => by cases h), (fun name h => by cases h)⟩
  have h : Inv (step (closed ∅) (.openCache plainEnv 26 false ⟨1, 0⟩ : Op flash ⟨false, 0⟩)) :=
    inv_openCache hstart plainEnv false ⟨1, 0⟩ (by decide) (Nat.zero_le _)
  rw [start_spec] at h
  exact h

/-- The run up to the second text. -/
theorem guarded_restored : Guarded step Keeps (closed ∅) (restoredOps.take 3) := by
  have hk : Keeps { kc := cache26, dir := ∅, stored := none }
      (.store plainEnv plainEngine liveToken (request [0x61] none)) :=
    keeps_request rfl rfl ((inv_start).budget rfl).2
  have hbudget := (inv_store inv_start plainEnv plainEngine liveToken (request [0x61] none) hk).budget
  rw [step_store_kc] at hbudget
  refine ⟨⟨by decide, Nat.zero_le _⟩, ?_, ?_, trivial⟩
  · rw [start_spec]
    exact hk
  · rw [start_spec]
    exact keeps_request rfl rfl (hbudget rfl).2

/-- The condition holds, so the budget does, up to the second text. -/
theorem budget_run_restored : WithinBudget ((restoredOps.take 3).foldl step (closed ∅)) :=
  budget_run clean_empty guarded_restored

theorem storeName_ne : storeName plainEngine (request [0x62] none) ≠
    storeName plainEngine (request [0x61] none) := by decide +kernel

/-- The file of a text of one byte. -/
def tokenFile (text payload : List UInt8) : List UInt8 :=
  storeFile flash 0 plainEngine liveToken.session (request text none) 0 payload []

theorem tokenFile_length (text : List UInt8) {payload : List UInt8}
    (htext : storeText plainEngine (request text none) = text) (hlen : text.length = 1)
    (hpayload : payload.length = 12811664) : (tokenFile text payload).length = 12811717 := by
  rw [tokenFile, storeFile_length, htext, hlen, hpayload, List.length_nil]

/-- The directory with both files. -/
def twoFiles (payload : List UInt8) : Dir :=
  (AList.insert (storeName plainEngine (request [0x61] none)) (tokenFile [0x61] payload) ∅).insert
    (storeName plainEngine (request [0x62] none)) (tokenFile [0x62] payload)

theorem kvBytes_twoFiles {payload : List UInt8} (h : payload.length = 12811664) :
    kvBytes (twoFiles payload) = 25623434 := by
  have ha := tokenFile_length [0x61] rfl rfl h
  have hb := tokenFile_length [0x62] rfl rfl h
  have hno : AList.lookup (storeName plainEngine (request [0x62] none))
      (AList.insert (storeName plainEngine (request [0x61] none)) (tokenFile [0x61] payload)
        (∅ : Dir)) = none := by
    rw [AList.lookup_insert_ne storeName_ne]
    rfl
  unfold kvBytes twoFiles
  rw [weigh_insert, erase_of_lookup_none hno, weigh_insert, erase_of_lookup_none (AList.lookup_empty _),
    kvSize_storeName, kvSize_storeName, ha, hb, weigh_empty]

/-- The state after the second text. -/
theorem restored_two : ∃ payload, liveToken.session.savePayload flash = .ok payload ∧
    payload.length = 12811664 ∧
    (restoredOps.take 3).foldl step (closed ∅) =
      { kc := cache26, dir := twoFiles payload,
        stored := some (storeName plainEngine (request [0x62] none)) } := by
  have hsaved := Session.Valid.saved (liveToken.valid rfl)
  have hlen := hsaved.bytes.symm
  refine ⟨_, hsaved.save, hlen.trans payloadBytes_liveToken, ?_⟩
  have hsave := hsaved.save
  generalize (liveToken.session.content flash).encode flash (liveToken.session.payloadHeader flash) =
    payload at hlen hsave ⊢
  have hpayload := hlen.trans payloadBytes_liveToken
  have ha := tokenFile_length [0x61] rfl rfl hpayload
  have hk : Keeps { kc := cache26, dir := ∅, stored := none }
      (.store plainEnv plainEngine liveToken (request [0x61] none)) :=
    keeps_request rfl rfl ((inv_start).budget rfl).2
  have hone_byte : (storeText plainEngine (request [0x62] none)).length = 1 := rfl
  have hmax : cache26.budgetBytes ≤ UINT64_MAX := by decide
  have hroom : 12811717 + (52 + 1 + 12811664) ≤ cache26.budgetBytes := by decide
  have h₁ := step_store_new inv_start plainEnv plainEngine liveToken (request [0x61] none) ready_a hsave
    hlen (List.cons_ne_nil _ _) rfl (AList.lookup_empty _) (by decide) (by
      rw [payloadBytes_liveToken]
      decide)
  have hinv := inv_store inv_start plainEnv plainEngine liveToken (request [0x61] none) hk
  have hfile : storeFile flash plainEnv.now plainEngine liveToken.session (request [0x61] none) 0 payload
      [] = tokenFile [0x61] payload := rfl
  rw [hfile] at h₁
  rw [h₁] at hinv
  have hone : kvBytes (AList.insert (storeName plainEngine (request [0x61] none))
      (tokenFile [0x61] payload) ∅) = 12811717 := by
    unfold kvBytes
    rw [weigh_insert, erase_of_lookup_none (AList.lookup_empty _), kvSize_storeName, ha, weigh_empty]
  have hlook : AList.lookup (storeName plainEngine (request [0x62] none))
      (AList.insert (storeName plainEngine (request [0x61] none)) (tokenFile [0x61] payload)
        (∅ : Dir)) = none := by
    rw [AList.lookup_insert_ne storeName_ne]
    rfl
  have hfits : kvBytes (AList.insert (storeName plainEngine (request [0x61] none))
      (tokenFile [0x61] payload) ∅) + (52 + (storeText plainEngine (request [0x62] none)).length +
        liveToken.session.payloadBytes flash) ≤ cache26.budgetBytes := by
    rw [hone, payloadBytes_liveToken, hone_byte]
    exact hroom
  have hops : restoredOps.take 3 = [.openCache plainEnv 26 false ⟨1, 0⟩,
      .store plainEnv plainEngine liveToken (request [0x61] none),
      .store plainEnv plainEngine liveToken (request [0x62] none)] := rfl
  rw [hops, List.foldl_cons, start_spec, List.foldl_cons, h₁, List.foldl_cons, List.foldl_nil]
  generalize hst : State.mk cache26 (AList.insert (storeName plainEngine (request [0x61] none))
    (tokenFile [0x61] payload) ∅) (some (storeName plainEngine (request [0x61] none))) = st at hinv ⊢
  have hkc : st.kc = cache26 := by rw [← hst]
  have hdir : st.dir = AList.insert (storeName plainEngine (request [0x61] none))
      (tokenFile [0x61] payload) ∅ := by rw [← hst]
  rw [← hdir] at hlook hfits
  have hready := ready_b
  rw [← hkc] at hready hfits hmax
  rw [step_store_new hinv plainEnv plainEngine liveToken (request [0x62] none) hready hsave hlen
    (List.cons_ne_nil _ _) rfl hlook hmax hfits, hkc, hdir]
  rfl

/-- **A trailer written again**: after the second text is stored once more, now with a trailer, the
    files of the cache are larger than its budget. -/
theorem not_withinBudget_restored : ¬ WithinBudget (restoredOps.foldl step (closed ∅)) := by
  obtain ⟨payload, hsave, hpayload, htwo⟩ := restored_two
  have hlen : payload.length = liveToken.session.payloadBytes flash :=
    hpayload.trans (payloadBytes_liveToken).symm
  have hb := tokenFile_length [0x62] rfl rfl hpayload
  obtain ⟨x, hw⟩ := whole_storeFile ready_b (liveToken.valid rfl) (List.cons_ne_nil _ _) 0 hlen []
  -- the file that is there is compatible
  have hlook : (twoFiles payload).lookup (storeName plainEngine (request [0x62] none)) =
      some (tokenFile [0x62] payload) := AList.lookup_insert _
  have hcompat : existingCompatible cache26 (storeName plainEngine (request [0x62] (some longTrailer)))
      (sha1BytesHex [0x62]) [0x62] 2 4096 (twoFiles payload) = (true, twoFiles payload) := by
    have hentry : readEntryFile (storeName plainEngine (request [0x62] (some longTrailer)))
        (sha1BytesHex [0x62]) (tokenFile [0x62] payload) = some
          { storedHeader flash 0 plainEngine liveToken.session (request [0x62] none) x with
            sha := sha1BytesHex [0x62]
            name := storeName plainEngine (request [0x62] (some longTrailer))
            fileSize := (tokenFile [0x62] payload).length } :=
      (readEntryFile_eq_some_iff).mpr ⟨hw, rfl, rfl, rfl⟩
    have htext : textOf (tokenFile [0x62] payload) 1 = [0x62] :=
      @textOf_storeFile flash plainEngine liveToken.session (request [0x62] none) 0 0 payload []
    have hok := @compatible_of_text cache26
      { storedHeader flash 0 plainEngine liveToken.session (request [0x62] none) x with
        sha := sha1BytesHex [0x62]
        name := storeName plainEngine (request [0x62] (some longTrailer))
        fileSize := (tokenFile [0x62] payload).length } [0x62] (tokenFile [0x62] payload) 2 4096
      hw.toReadable htext rfl (by decide) rfl (Nat.le_refl _)
    unfold existingCompatible
    have hlook' : (twoFiles payload).lookup (storeName plainEngine (request [0x62] (some longTrailer))) =
        some (tokenFile [0x62] payload) := hlook
    rw [hlook']
    dsimp only
    rw [hentry]
    dsimp only
    rw [hok]
    rfl
  have hstore : storeLivePrefixText flash plainEnv plainEngine cache26 liveToken.session
      (request [0x62] (some longTrailer)) (twoFiles payload) =
        (true, (twoFiles payload).insert (storeName plainEngine (request [0x62] none))
          (withTrailer 0 longTrailer [0x62] (tokenFile [0x62] payload))) := by
    have hcompat' : existingCompatible cache26
        (storeName plainEngine (request [0x62] (some longTrailer)))
        (sha1BytesHex (storeText plainEngine (request [0x62] (some longTrailer))))
        (storeText plainEngine (request [0x62] (some longTrailer))) plainEngine.quantBits
        liveToken.session.host.ctxSize (twoFiles payload) = (true, twoFiles payload) := hcompat
    rw [storeLivePrefixText_of_ready ready_b_again, hcompat']
    dsimp only
    unfold rewriteTrailer
    have hhooks : rewriteHooks (request [0x62] (some longTrailer)).hooks
        (storeText plainEngine (request [0x62] (some longTrailer))) = some longTrailer := rfl
    have hlook' : (twoFiles payload).lookup (storeName plainEngine (request [0x62] (some longTrailer))) =
        some (tokenFile [0x62] payload) := hlook
    rw [hhooks, hlook']
    rfl
  have hfile := (rewritten_withTrailer hw 0 longTrailer [0x62]).2
  have hsum := weigh_insert_of_lookup kvSize
    (withTrailer 0 longTrailer [0x62] (tokenFile [0x62] payload)) hlook
  have htotal := kvBytes_twoFiles hpayload
  have hheader : 52 + 1 + liveToken.session.payloadBytes flash = 12811717 := by
    rw [payloadBytes_liveToken]
  have htrailer : (trailerWrite (some longTrailer) [0x62]).2.1.length = 2097152 := List.length_replicate
  have hstop : ¬ INT64_MAX < 12811717 := by decide
  have hfile' : (withTrailer 0 longTrailer [0x62] (tokenFile [0x62] payload)).length = 14908869 := by
    have hparts : 52 + (storedHeader flash 0 plainEngine liveToken.session (request [0x62] none)
        x).textBytes + (storedHeader flash 0 plainEngine liveToken.session (request [0x62] none)
        x).payloadBytes = 12811717 := hheader
    have hfile := hfile
    rw [hparts, if_neg hstop, htrailer] at hfile
    exact hfile
  rw [kvSize_storeName, kvSize_storeName, hb, hfile'] at hsum
  have hover : 27262976 < kvBytes ((twoFiles payload).insert (storeName plainEngine (request [0x62] none))
      (withTrailer 0 longTrailer [0x62] (tokenFile [0x62] payload))) := by
    unfold kvBytes at htotal ⊢
    omega
  have hops : restoredOps = restoredOps.take 3 ++
      [.store plainEnv plainEngine liveToken (request [0x62] (some longTrailer))] := rfl
  intro h
  rw [hops, List.foldl_append, htwo, List.foldl_cons, List.foldl_nil] at h
  simp only [step, hstore] at h
  have hle := (h _ rfl).1
  have hbudget : cache26.budgetBytes = 27262976 := by decide
  rw [hbudget] at hle
  exact absurd (Nat.lt_of_lt_of_le hover hle) (Nat.lt_irrefl _)

end DS4.KvStore
