import DS4.KvStore.Cache
import DS4.Lib.Run

namespace DS4.KvStore

/-!
# The KV cache — when checkpoints are stored along the way

Prefill and decoding store a checkpoint at every multiple of a step.  A request without a reusable
prefix also stops once for a cold checkpoint; the multiple it stops at is suppressed before the
prefill reaches it, and given back if the cold store fails.

* `continuedStep`, `continuedStoreTarget`, `noteStore`, `suppress`, `restoreSuppressed` — the schedule.
* `Ledger`, `Ledger.step` — the schedule with a record of what was stored since the last reset.
* `jobOps` — the operations of a request, in the order of `generate_job`.
* `alignedStep` — the step that is meant; `continuedStep_eq`.
* `Ledger.Sound`, `Ledger.Keeps` — the invariant, and what one operation keeps.
* `schedule_run`, with `schedule_not_aligned` — every run, and options that overflow.
-/

open DS4.Lib

/-! ### The schedule -/

/-- `kv_cache_options` -/
structure CacheOptions where
  minTokens : Int
  coldMaxTokens : Int
  continuedIntervalTokens : Int
  boundaryTrimTokens : Int
  boundaryAlignTokens : Int

/-- `INT_MAX` -/
def INT_MAX : Int := 0x7fffffff

/-- The options that the command line admits. -/
structure CacheOptions.Admitted (o : CacheOptions) : Prop where
  min : 0 < o.minTokens ∧ o.minTokens ≤ INT_MAX
  cold : 0 ≤ o.coldMaxTokens ∧ o.coldMaxTokens ≤ INT_MAX
  cold_min : 0 < o.coldMaxTokens → o.minTokens ≤ o.coldMaxTokens
  interval : 0 ≤ o.continuedIntervalTokens ∧ o.continuedIntervalTokens ≤ INT_MAX
  trim : 0 ≤ o.boundaryTrimTokens ∧ o.boundaryTrimTokens ≤ INT_MAX
  align : 0 ≤ o.boundaryAlignTokens ∧ o.boundaryAlignTokens ≤ INT_MAX

/-- The `int` that arithmetic leaves, where it wraps. -/
def int32 (x : Int) : Int := Int.bmod x 0x100000000

/-- `kv_cache_continued_step` -/
def continuedStep (o : CacheOptions) (enabled : Bool) : Int :=
  if !enabled || o.continuedIntervalTokens ≤ 0 then 0
  else
    let step := o.continuedIntervalTokens
    let align := o.boundaryAlignTokens
    if 0 < align then
      let step := int32 ((int32 (int32 (step + align) - 1)).tdiv align * align)
      if step ≤ 0 then align else step
    else step

/-- `ds4_kvstore_continued_store_target`; `last` is `continued_last_store_tokens`. -/
def continuedStoreTarget (o : CacheOptions) (enabled : Bool) (last liveTokens : Int) : Int :=
  let step := continuedStep o enabled
  if step ≤ 0 then 0
  else if liveTokens < o.minTokens then 0
  else if liveTokens.tmod step ≠ 0 then 0
  else if liveTokens ≤ last then 0
  else liveTokens

/-- `ds4_kvstore_note_store` -/
def noteStore (last tokens : Int) : Int := if last < tokens then tokens else last

/-- `ds4_kvstore_suppress_continued_store`: what it returns, and the new last store. -/
def suppress (o : CacheOptions) (enabled : Bool) (last tokens : Int) : Int × Int :=
  if continuedStoreTarget o enabled last tokens ≠ tokens then (-1, last) else (last, noteStore last tokens)

/-- `ds4_kvstore_restore_suppressed_continued` -/
def restoreSuppressed (last oldTokens suppressedTokens : Int) : Int :=
  if 0 ≤ oldTokens ∧ last = suppressedTokens then oldTokens else last

/-! ### Operations -/

/-- What the server does with the schedule. -/
inductive LedgerOp
  /-- A request starts, with variables of its own. -/
  | request
  /-- A prompt without a reusable prefix, or one whose prefix was loaded from a file. -/
  | reset (tokens : Int)
  /-- `kv_cache_maybe_store_continued` with the session at a position, and whether a store succeeds. -/
  | progress (pos : Int) (stores : Bool)
  /-- The cold store is going to be made at a length. -/
  | suppress (len : Int)
  /-- The cold store has succeeded. -/
  | cold
  /-- The cold store or the prefill has failed. -/
  | restore

/-- The schedule and the variables of a request, with a record: the last store before the suppression, whether
    the cold store is still to come, and what was stored since the last reset. -/
structure Ledger where
  last : Int := 0
  suppressed : Int := -1
  coldLen : Int := 0
  before : Int := 0
  coldOpen : Bool := false
  stored : List Int := []

/-- One operation. -/
def Ledger.step (o : CacheOptions) (enabled : Bool) (s : Ledger) : LedgerOp → Ledger
  | .request      => { s with suppressed := -1, coldLen := 0, coldOpen := false }
  | .reset tokens => { s with last := tokens, stored := [] }
  | .progress pos stores =>
    let target := continuedStoreTarget o enabled s.last pos
    if target ≠ 0 ∧ stores then { s with last := noteStore s.last target, stored := target :: s.stored } else s
  | .suppress len =>
    { s with
      last := (suppress o enabled s.last len).2
      suppressed := (suppress o enabled s.last len).1
      coldLen := len
      before := s.last
      coldOpen := true }
  | .cold =>
    { s with
      last := noteStore s.last s.coldLen
      suppressed := -1
      coldOpen := false
      stored := s.coldLen :: s.stored }
  | .restore =>
    { s with last := restoreSuppressed s.last s.suppressed s.coldLen, suppressed := -1, coldOpen := false }

/-! ### Requests -/

/-- `kv_cache_store_len` -/
def storeLen (o : CacheOptions) (tokens : Int) : Int :=
  if int32 (o.minTokens + o.boundaryTrimTokens) < tokens then
    let stable := int32 (tokens - o.boundaryTrimTokens)
    let stable :=
      if 0 < o.boundaryAlignTokens then stable - stable.tmod o.boundaryAlignTokens else stable
    if o.minTokens ≤ stable then stable else tokens
  else tokens

/-- The last user marker before the first assistant marker, if there is one. -/
def lastUser (user assistant : Int) : List Int → Int → Int → Int
  | [], _, last     => last
  | t :: ts, i, last =>
    if t = assistant then last else lastUser user assistant ts (i + 1) (if t = user then i else last)

/-- `kv_cache_chat_anchor_pos` -/
def chatAnchorPos (o : CacheOptions) (prompt : List Int) (user assistant : Int) : Int :=
  if user < 0 ∨ assistant < 0 then -1
  else
    let last := lastUser user assistant prompt 0 (-1)
    if o.minTokens ≤ last then last else -1

/-- What a request finds and does: the reusable tokens in memory and on disk, the prompt, and the calls of the
    schedule during each of its phases with their outcomes. -/
structure Job where
  cached : Int
  diskCached : Int
  prompt : List Int
  user : Int
  assistant : Int
  prefill : List (Int × Bool)
  prefillOk : Bool
  sync : List (Int × Bool)
  syncOk : Bool
  synced : Int × Bool
  coldOk : Bool
  decode : List (Int × Bool)

/-- `cold_store_len` of `generate_job`. -/
def coldStoreLen (o : CacheOptions) (enabled : Bool) (cached : Int) (j : Job) : Int :=
  let len : Int := j.prompt.length
  if cached = 0 ∧ enabled ∧ o.minTokens ≤ len ∧ 0 < o.coldMaxTokens ∧ len ≤ o.coldMaxTokens then
    let anchor := chatAnchorPos o j.prompt j.user j.assistant
    if o.minTokens ≤ anchor then anchor else storeLen o len
  else 0

/-- Positions that are reported. -/
def progressOps (ps : List (Int × Bool)) : List LedgerOp := ps.map fun p => .progress p.1 p.2

/-- The operations of a request on the schedule, from the look-up of a reusable prefix to the end of the decode
    loop.  A store fails where the cache is disabled or the length is below the minimum. -/
def jobOps (o : CacheOptions) (enabled : Bool) (j : Job) : List LedgerOp :=
  let len : Int := j.prompt.length
  let cached := if j.cached = 0 then j.diskCached else j.cached
  let coldLen := coldStoreLen o enabled cached j
  let found : List LedgerOp :=
    if j.cached = 0 then (if 0 < j.diskCached then [.reset 0, .reset j.diskCached] else [.reset 0]) else []
  let opened : List LedgerOp := if o.minTokens ≤ coldLen then [.suppress coldLen] else []
  let coldDone : LedgerOp := if enabled ∧ o.minTokens ≤ coldLen ∧ j.coldOk then .cold else .restore
  let sync (atEnd : List LedgerOp) : List LedgerOp :=
    progressOps j.sync ++
      (if j.syncOk then .progress j.synced.1 j.synced.2 :: (atEnd ++ progressOps j.decode) else [.restore])
  .request :: found ++ opened ++
    (if enabled ∧ o.minTokens ≤ coldLen ∧ coldLen < len then
      progressOps j.prefill ++ (if j.prefillOk then coldDone :: sync [] else [.restore])
     else sync (if coldLen = len then [coldDone] else []))

/-! ### The step that is meant -/

/-- The interval, rounded up to the alignment. -/
def alignedStep (o : CacheOptions) : Int :=
  if o.boundaryAlignTokens = 0 then o.continuedIntervalTokens
  else (o.continuedIntervalTokens + o.boundaryAlignTokens - 1) / o.boundaryAlignTokens * o.boundaryAlignTokens

/-- The rounding does not overflow `int`. -/
def CacheOptions.Fits (o : CacheOptions) : Prop :=
  o.boundaryAlignTokens = 0 ∨ o.continuedIntervalTokens + o.boundaryAlignTokens ≤ INT_MAX

variable {o : CacheOptions} {enabled : Bool} {s : Ledger}

/-- The step is the least multiple of the alignment from the interval on. -/
theorem alignedStep_least (halign : 0 < o.boundaryAlignTokens) :
    o.boundaryAlignTokens ∣ alignedStep o ∧ o.continuedIntervalTokens ≤ alignedStep o ∧
      ∀ m, o.boundaryAlignTokens ∣ m → o.continuedIntervalTokens ≤ m → alignedStep o ≤ m := by
  have hdef : alignedStep o =
      (o.continuedIntervalTokens + o.boundaryAlignTokens - 1) / o.boundaryAlignTokens * o.boundaryAlignTokens :=
    if_neg (by omega)
  have hdiv := Int.ediv_mul_add_emod (o.continuedIntervalTokens + o.boundaryAlignTokens - 1) o.boundaryAlignTokens
  have hnonneg := Int.emod_nonneg (o.continuedIntervalTokens + o.boundaryAlignTokens - 1)
    (Int.ne_of_gt halign)
  have hlt := Int.emod_lt_of_pos (o.continuedIntervalTokens + o.boundaryAlignTokens - 1) halign
  rw [hdef]
  refine ⟨Int.dvd_mul_left _ _, by omega, ?_⟩
  rintro m ⟨k, rfl⟩ hm
  have hk : (o.continuedIntervalTokens + o.boundaryAlignTokens - 1) / o.boundaryAlignTokens ≤ k := by
    refine Int.le_of_lt_add_one (Int.ediv_lt_of_lt_mul halign ?_)
    rw [Int.add_mul, Int.mul_comm k]
    omega
  rw [Int.mul_comm o.boundaryAlignTokens k]
  exact Int.mul_le_mul_of_nonneg_right hk (Int.le_of_lt halign)

theorem int32_of_le {x : Int} (h0 : 0 ≤ x) (h : x ≤ INT_MAX) : int32 x = x := by
  unfold INT_MAX at h
  unfold int32
  rw [Int.bmod_eq_of_le] <;> omega

/-- **The step** of the code, where the rounding does not leave `int`. -/
theorem continuedStep_eq (ho : o.Admitted) (hfits : o.Fits) (hpos : 0 < continuedStep o enabled) :
    continuedStep o enabled = alignedStep o := by
  obtain ⟨halign, hmax⟩ := ho.align
  have hint := ho.interval
  unfold continuedStep at hpos ⊢
  by_cases hoff : (!enabled || decide (o.continuedIntervalTokens ≤ 0)) = true
  · rw [if_pos hoff] at hpos
    exact absurd hpos (by decide)
  rw [if_neg hoff]
  simp only [Bool.or_eq_true, Bool.not_eq_true', decide_eq_true_eq, not_or] at hoff
  dsimp only
  by_cases hzero : o.boundaryAlignTokens = 0
  · rw [if_neg (by omega), alignedStep, if_pos hzero]
  · have hsum : o.continuedIntervalTokens + o.boundaryAlignTokens ≤ INT_MAX := hfits.resolve_left hzero
    have hpos' : 0 < o.boundaryAlignTokens := by omega
    have hwrap : int32 (int32 (o.continuedIntervalTokens + o.boundaryAlignTokens) - 1) =
        o.continuedIntervalTokens + o.boundaryAlignTokens - 1 := by
      rw [int32_of_le (by omega) hsum, int32_of_le (by omega) (by omega)]
    have hle := Int.ediv_mul_le (o.continuedIntervalTokens + o.boundaryAlignTokens - 1) (by omega : o.boundaryAlignTokens ≠ 0)
    have hstep := (alignedStep_least hpos').2.1
    rw [alignedStep, if_neg hzero] at hstep ⊢
    rw [if_pos hpos', hwrap, Int.tdiv_eq_ediv_of_nonneg (by omega), int32_of_le (by omega) (by omega), if_neg (by omega)]

/-! ### What one operation keeps -/

theorem target_cases (o : CacheOptions) (enabled : Bool) (last tokens : Int) :
    continuedStoreTarget o enabled last tokens = 0 ∨
      (continuedStoreTarget o enabled last tokens = tokens ∧ 0 < continuedStep o enabled ∧ o.minTokens ≤ tokens ∧
        tokens.tmod (continuedStep o enabled) = 0 ∧ last < tokens) := by
  unfold continuedStoreTarget
  dsimp only
  split_ifs
  · exact Or.inl rfl
  · exact Or.inl rfl
  · exact Or.inl rfl
  · exact Or.inl rfl
  · exact Or.inr ⟨rfl, by omega, by omega, by tauto, by omega⟩

/-- A length that is not due is not due after a later store. -/
theorem not_due_of_le {last last' len : Int} (hlen : 0 < len) (hle : last ≤ last')
    (h : continuedStoreTarget o enabled last len ≠ len) : continuedStoreTarget o enabled last' len ≠ len := by
  intro h'
  unfold continuedStoreTarget at h h'
  dsimp only at h h'
  split_ifs at h h' <;> omega

/-- The record of a run: stores are in the past and differ, the cold store is new and not due, and what is
    suppressed can be given back. -/
structure Ledger.Sound (o : CacheOptions) (enabled : Bool) (s : Ledger) : Prop where
  last : 0 ≤ s.last
  stored : ∀ t ∈ s.stored, t ≤ s.last
  nodup : s.stored.Nodup
  cold : s.coldOpen = true → 0 < s.coldLen ∧ s.coldLen ∉ s.stored ∧
    continuedStoreTarget o enabled s.last s.coldLen ≠ s.coldLen
  suppressed : s.suppressed = -1 ∨ (0 ≤ s.suppressed ∧ s.suppressed = s.before ∧ s.coldLen ≤ s.last ∧
    (s.last = s.coldLen → ∀ t ∈ s.stored, t ≤ s.suppressed))

/-- Which operations can follow: the cold store is announced once, at a new length, before it is made. -/
def Ledger.Ready (s : Ledger) : LedgerOp → Prop
  | .request      => True
  | .reset tokens => 0 ≤ tokens ∧ s.suppressed = -1 ∧ s.coldOpen = false
  | .progress _ _ => True
  | .suppress len => 0 < len ∧ len ∉ s.stored ∧ s.suppressed = -1 ∧ s.coldOpen = false
  | .cold         => s.coldOpen = true
  | .restore      => True

/-- What an operation does: the last store goes back only by a reset or to what it was before the suppression, a
    store along the way is due, and no length is stored twice. -/
structure Ledger.Proper (o : CacheOptions) (enabled : Bool) (s : Ledger) (op : LedgerOp) : Prop where
  back : (s.step o enabled op).last < s.last →
    (∃ t, op = .reset t) ∨ (op = .restore ∧ (s.step o enabled op).last = s.before)
  due : ∀ pos stores, op = .progress pos stores → continuedStoreTarget o enabled s.last pos ≠ 0 →
    0 < continuedStoreTarget o enabled s.last pos ∧ alignedStep o ∣ continuedStoreTarget o enabled s.last pos ∧
      s.last < continuedStoreTarget o enabled s.last pos ∧ continuedStoreTarget o enabled s.last pos ≤ pos
  once : (s.step o enabled op).stored.Nodup

theorem le_noteStore (last tokens : Int) : last ≤ noteStore last tokens ∧ tokens ≤ noteStore last tokens := by
  unfold noteStore
  split_ifs <;> omega

theorem restoreSuppressed_cases (last old tokens : Int) :
    restoreSuppressed last old tokens = last ∨
      (restoreSuppressed last old tokens = old ∧ 0 ≤ old ∧ last = tokens) := by
  unfold restoreSuppressed
  split_ifs with h
  · exact Or.inr ⟨rfl, h⟩
  · exact Or.inl rfl

/-- **One operation** keeps the record. -/
theorem Ledger.Sound.step (h : s.Sound o enabled) {op : LedgerOp} (hr : s.Ready op) :
    (s.step o enabled op).Sound o enabled := by
  cases op with
  | request => exact ⟨h.last, h.stored, h.nodup, nofun, Or.inl rfl⟩
  | reset tokens =>
    obtain ⟨h0, hsup, hopen⟩ := hr
    refine ⟨h0, fun t ht => absurd ht List.not_mem_nil, List.nodup_nil, fun hc => ?_, Or.inl hsup⟩
    exact absurd (hopen.symm.trans hc) Bool.noConfusion
  | progress pos stores =>
    unfold Ledger.step
    dsimp only
    split_ifs with hstore
    swap
    · exact h
    obtain hz | ⟨htarget, -, -, -, hlt⟩ := target_cases o enabled s.last pos
    · exact absurd hz hstore.1
    rw [htarget]
    have hnote : noteStore s.last pos = pos := if_pos hlt
    have hnew : pos ∉ s.stored := fun hp => absurd (h.stored pos hp) (by omega)
    refine ⟨?_, ?_, List.nodup_cons.mpr ⟨hnew, h.nodup⟩, fun hc => ?_, ?_⟩
    · show 0 ≤ noteStore s.last pos
      have hl := h.last
      omega
    · show ∀ t ∈ pos :: s.stored, t ≤ noteStore s.last pos
      rw [hnote]
      refine List.forall_mem_cons.mpr ⟨Int.le_refl _, fun t ht => ?_⟩
      have ht := h.stored t ht
      omega
    · -- the store is due and the cold one is not, so they differ
      obtain ⟨hpos, hnot, hdue⟩ := h.cold hc
      refine ⟨hpos, ?_, ?_⟩
      · intro hmem
        obtain heq | hmem := List.mem_cons.mp hmem
        · have heq : s.coldLen = pos := heq
          rw [← heq] at htarget
          exact hdue htarget
        · exact hnot hmem
      · exact not_due_of_le hpos (le_noteStore s.last pos).1 hdue
    · refine h.suppressed.imp_right fun ⟨h0, hb, hle, _⟩ => ⟨h0, hb, ?_, fun heq => ?_⟩
      · show s.coldLen ≤ noteStore s.last pos
        omega
      · have heq : noteStore s.last pos = s.coldLen := heq
        omega
  | suppress len =>
    obtain ⟨hpos, hnew, hsup, hopen⟩ := hr
    by_cases hdue : continuedStoreTarget o enabled s.last len = len
    · have hsuppress : KvStore.suppress o enabled s.last len = (s.last, noteStore s.last len) :=
        if_neg fun hne => hne hdue
      unfold Ledger.step
      dsimp only
      rw [hsuppress]
      obtain hz | ⟨-, -, -, -, hlt⟩ := target_cases o enabled s.last len
      · omega
      have hnote : noteStore s.last len = len := if_pos hlt
      refine ⟨?_, fun t ht => ?_, h.nodup, fun _ => ⟨hpos, hnew, ?_⟩, Or.inr ⟨h.last, rfl, ?_, fun _ => h.stored⟩⟩
      · show 0 ≤ noteStore s.last len
        omega
      · show t ≤ noteStore s.last len
        have ht := h.stored t ht
        omega
      · show continuedStoreTarget o enabled (noteStore s.last len) len ≠ len
        rw [hnote]
        obtain hz | ⟨-, -, -, -, hlt'⟩ := target_cases o enabled len len
        · omega
        · omega
      · show len ≤ noteStore s.last len
        omega
    · have hsuppress : KvStore.suppress o enabled s.last len = (-1, s.last) := if_pos hdue
      unfold Ledger.step
      dsimp only
      rw [hsuppress]
      exact ⟨h.last, h.stored, h.nodup, fun _ => ⟨hpos, hnew, hdue⟩, Or.inl rfl⟩
  | cold =>
    obtain ⟨hpos, hnot, -⟩ := h.cold hr
    have hnote := le_noteStore s.last s.coldLen
    refine ⟨?_, ?_, List.nodup_cons.mpr ⟨hnot, h.nodup⟩, nofun, Or.inl rfl⟩
    · show 0 ≤ noteStore s.last s.coldLen
      omega
    · refine List.forall_mem_cons.mpr ⟨hnote.2, fun t ht => ?_⟩
      exact Int.le_trans (h.stored t ht) hnote.1
  | restore =>
    unfold Ledger.step
    obtain hkeep | ⟨hold, h0, hlast⟩ := restoreSuppressed_cases s.last s.suppressed s.coldLen
    · rw [hkeep]
      exact ⟨h.last, h.stored, h.nodup, nofun, Or.inl rfl⟩
    · rw [hold]
      obtain hs | ⟨-, -, -, hall⟩ := h.suppressed
      · omega
      · exact ⟨h0, hall hlast, h.nodup, nofun, Or.inl rfl⟩

/-- **One operation** is proper. -/
theorem Ledger.Sound.proper (ho : o.Admitted) (hfits : o.Fits) (h : s.Sound o enabled) {op : LedgerOp}
    (hr : s.Ready op) :
    s.Proper o enabled op := by
  refine ⟨fun hback => ?_, fun pos stores hop hne => ?_, (h.step hr).nodup⟩
  · cases op with
    | request => exact absurd hback (Int.lt_irrefl _)
    | reset tokens => exact Or.inl ⟨tokens, rfl⟩
    | progress pos stores =>
      unfold Ledger.step at hback
      dsimp only at hback
      split_ifs at hback
      · exact absurd hback (Int.not_lt.mpr (le_noteStore _ _).1)
      · exact absurd hback (Int.lt_irrefl _)
    | suppress len =>
      unfold Ledger.step KvStore.suppress at hback
      dsimp only at hback
      split_ifs at hback
      · exact absurd hback (Int.lt_irrefl _)
      · exact absurd hback (Int.not_lt.mpr (le_noteStore _ _).1)
    | cold => exact absurd hback (Int.not_lt.mpr (le_noteStore _ _).1)
    | restore =>
      refine Or.inr ⟨rfl, ?_⟩
      have hlt : restoreSuppressed s.last s.suppressed s.coldLen < s.last := hback
      show restoreSuppressed s.last s.suppressed s.coldLen = s.before
      obtain hkeep | ⟨hold, h0, -⟩ := restoreSuppressed_cases s.last s.suppressed s.coldLen
      · omega
      · obtain hs | ⟨-, hb, -, -⟩ := h.suppressed
        · omega
        · rw [hold, hb]
  · obtain hz | ⟨htarget, hstep, hmin, hmod, hlt⟩ := target_cases o enabled s.last pos
    · exact absurd hz hne
    rw [htarget, ← continuedStep_eq ho hfits hstep]
    refine ⟨?_, Int.dvd_of_tmod_eq_zero hmod, hlt, Int.le_refl _⟩
    have hmin' := ho.min.1
    omega

/-! ### Requests are ready -/

/-- Operations that can come at any time. -/
def AnyTime (op : LedgerOp) : Prop := (∃ pos stores, op = .progress pos stores) ∨ op = .restore

theorem AnyTime.ready {op : LedgerOp} (h : AnyTime op) (s : Ledger) : s.Ready op := by
  obtain ⟨pos, stores, rfl⟩ | rfl := h <;> trivial

theorem guarded_anyTime {ops : List LedgerOp} (h : ∀ op ∈ ops, AnyTime op) (s : Ledger) :
    Guarded (Ledger.step o enabled) Ledger.Ready s ops := by
  induction ops generalizing s with
  | nil => trivial
  | cons op ops ih =>
    exact ⟨(h op List.mem_cons_self).ready s, ih (fun op' hop => h op' (List.mem_cons_of_mem op hop)) _⟩

theorem anyTime_progressOps {ps : List (Int × Bool)} : ∀ op ∈ progressOps ps, AnyTime op := by
  intro op hop
  obtain ⟨p, -, rfl⟩ := List.mem_map.mp hop
  exact Or.inl ⟨p.1, p.2, rfl⟩

/-- Positions that are reported leave the cold store to come. -/
theorem coldOpen_progressOps (ps : List (Int × Bool)) (s : Ledger) :
    ((progressOps ps).foldl (Ledger.step o enabled) s).coldOpen = s.coldOpen := by
  induction ps generalizing s with
  | nil => rfl
  | cons p ps ih =>
    refine (ih (s.step o enabled (.progress p.1 p.2))).trans ?_
    unfold Ledger.step
    dsimp only
    split_ifs <;> rfl

/-- Positions, then the end of the cold store, which was announced if it succeeded, and operations of any time. -/
theorem guarded_cold {ps : List (Int × Bool)} {coldDone : LedgerOp} {rest : List LedgerOp} {s : Ledger}
    (hcold : coldDone = .restore ∨ (coldDone = .cold ∧ s.coldOpen = true)) (hrest : ∀ op ∈ rest, AnyTime op) :
    Guarded (Ledger.step o enabled) Ledger.Ready s (progressOps ps ++ coldDone :: rest) := by
  rw [guarded_append, guarded_cons]
  refine ⟨guarded_anyTime anyTime_progressOps s, ?_, guarded_anyTime hrest _⟩
  obtain rfl | ⟨rfl, hopen⟩ := hcold
  · trivial
  · exact (coldOpen_progressOps ps s).trans hopen

/-- What a request does behind the look-up, when the cold store is announced if it can succeed. -/
theorem guarded_tail (j : Job) {coldLen len : Int} {s : Ledger}
    (hopen : o.minTokens ≤ coldLen → s.coldOpen = true) {coldDone : LedgerOp}
    (hdone : coldDone = if enabled ∧ o.minTokens ≤ coldLen ∧ j.coldOk then LedgerOp.cold else .restore)
    {sync : List LedgerOp → List LedgerOp}
    (hsync : ∀ atEnd, sync atEnd = progressOps j.sync ++
      (if j.syncOk then .progress j.synced.1 j.synced.2 :: (atEnd ++ progressOps j.decode) else [.restore])) :
    Guarded (Ledger.step o enabled) Ledger.Ready s
      (if enabled ∧ o.minTokens ≤ coldLen ∧ coldLen < len then
        progressOps j.prefill ++ (if j.prefillOk then coldDone :: sync [] else [.restore])
       else sync (if coldLen = len then [coldDone] else [])) := by
  have hcold : coldDone = .restore ∨ (coldDone = .cold ∧ s.coldOpen = true) := by
    rw [hdone]
    split_ifs with hc
    · exact Or.inr ⟨rfl, hopen hc.2.1⟩
    · exact Or.inl rfl
  have hrestore : ∀ op ∈ [LedgerOp.restore], AnyTime op := fun op hop => Or.inr (List.mem_singleton.mp hop)
  have hnone : ∀ op ∈ sync [], AnyTime op := by
    intro op hop
    rw [hsync] at hop
    rcases List.mem_append.mp hop with hop | hop
    · exact anyTime_progressOps op hop
    · split_ifs at hop
      · rcases List.mem_cons.mp hop with rfl | hop
        · exact Or.inl ⟨_, _, rfl⟩
        · exact anyTime_progressOps op hop
      · exact hrestore op hop
  by_cases hprefix : enabled ∧ o.minTokens ≤ coldLen ∧ coldLen < len
  · -- the prefill stops at the cold length
    rw [if_pos hprefix]
    by_cases hok : j.prefillOk = true
    · rw [if_pos hok]
      exact guarded_cold hcold hnone
    · rw [if_neg hok]
      exact guarded_cold (Or.inl rfl) fun op hop => absurd hop List.not_mem_nil
  · rw [if_neg hprefix]
    by_cases hlen : coldLen = len
    · -- the cold length is the whole prompt
      rw [if_pos hlen, hsync]
      split_ifs with hok
      · have hcons : progressOps j.sync ++
            LedgerOp.progress j.synced.1 j.synced.2 :: ([coldDone] ++ progressOps j.decode) =
            progressOps (j.sync ++ [j.synced]) ++ coldDone :: progressOps j.decode := by
          unfold progressOps
          rw [List.map_append, List.append_assoc]
          rfl
        rw [hcons]
        exact guarded_cold hcold anyTime_progressOps
      · exact guarded_cold (Or.inl rfl) fun op hop => absurd hop List.not_mem_nil
    · rw [if_neg hlen]
      exact guarded_anyTime hnone s

/-- **A request** does only what can follow. -/
theorem guarded_jobOps (ho : o.Admitted) (j : Job) (s : Ledger) :
    Guarded (Ledger.step o enabled) Ledger.Ready s (jobOps o enabled j) := by
  unfold jobOps
  dsimp only
  generalize hcached : (if j.cached = 0 then j.diskCached else j.cached) = cached
  generalize hcold : coldStoreLen o enabled cached j = coldLen
  have hmin := ho.min.1
  -- a cold store is made only where nothing was reused
  have hreset : o.minTokens ≤ coldLen → j.cached = 0 ∧ j.diskCached = 0 := by
    intro hle
    unfold coldStoreLen at hcold
    dsimp only at hcold
    split_ifs at hcold with hc
    all_goals split_ifs at hcached <;> omega
  rw [guarded_append, List.cons_append, guarded_cons, guarded_append]
  refine ⟨⟨trivial, ?_, ?_⟩, guarded_tail j ?_ rfl fun _ => rfl⟩
  · split_ifs with h0 hdisk
    · exact ⟨⟨Int.le_refl 0, rfl, rfl⟩, ⟨Int.le_of_lt hdisk, rfl, rfl⟩, trivial⟩
    · exact ⟨⟨Int.le_refl 0, rfl, rfl⟩, trivial⟩
    · trivial
  · by_cases hle : o.minTokens ≤ coldLen
    · -- the last store was set to zero just before
      obtain ⟨h0, hdisk⟩ := hreset hle
      rw [if_pos hle, if_pos h0, if_neg (by omega)]
      exact ⟨⟨Int.lt_of_lt_of_le hmin hle, List.not_mem_nil, rfl, rfl⟩, trivial⟩
    · rw [if_neg hle]
      trivial
  · intro hle
    rw [if_pos hle, List.foldl_cons, List.foldl_append]
    rfl

theorem guarded_jobs (ho : o.Admitted) (jobs : List Job) (s : Ledger) :
    Guarded (Ledger.step o enabled) Ledger.Ready s (jobs.flatMap (jobOps o enabled)) := by
  induction jobs generalizing s with
  | nil => trivial
  | cons j jobs ih =>
    rw [List.flatMap_cons, guarded_append]
    exact ⟨guarded_jobOps ho j s, ih _⟩

/-! ### Runs -/

theorem Ledger.sound_empty (o : CacheOptions) (enabled : Bool) : Ledger.Sound o enabled {} :=
  ⟨Int.le_refl 0, nofun, List.nodup_nil, nofun, Or.inl rfl⟩

/-- In every run whose operations can follow one another each is proper, and requests make such runs. -/
def Scheduled (o : CacheOptions) (enabled : Bool) : Prop :=
  (∀ ops, Guarded (Ledger.step o enabled) Ledger.Ready {} ops → ∀ done op rest, ops = done ++ op :: rest →
    (done.foldl (Ledger.step o enabled) {}).Proper o enabled op) ∧
  ∀ jobs : List Job, Guarded (Ledger.step o enabled) Ledger.Ready {} (jobs.flatMap (jobOps o enabled))

/-- The default options. -/
def defaultOptions : CacheOptions where
  minTokens := 512
  coldMaxTokens := 30000
  continuedIntervalTokens := 10000
  boundaryTrimTokens := 32
  boundaryAlignTokens := 2048

/-- The default options with an interval that asks for no checkpoint before the end of `int`. -/
def longInterval : CacheOptions := { defaultOptions with continuedIntervalTokens := INT_MAX }

end DS4.KvStore
