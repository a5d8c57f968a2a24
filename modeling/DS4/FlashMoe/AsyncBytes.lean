import DS4.FlashMoe.AsyncReader
import Mathlib.Data.List.Perm.Subperm
import Mathlib.Data.List.Nodup
import Mathlib.Data.List.Induction

namespace DS4.FlashMoe

/-!
# Flash-MoE — the asynchronous prefill reader delivers the right bytes

What a slot of the pool means to the readers that hold its chunks.

* `inChunk_disjoint`, `exists_inChunk` — the chunks of a read cut it into disjoint parts.
* `SlotInv` — the invariant of one slot and its chunk jobs; one lemma for each way in which a slot
  changes.
* `AsyncInv` — the invariant of the pool; `asyncInv_step`, and from it every run.
* `async_reader_delivers` — a ready slot has been read completely, and what the consumer stages is
  the record of its expert.
-/

/-! ### Chunks -/

theorem ioSplitRange_one {bytes nsplit : Nat} (h : nsplit ≤ 1) (c : Nat) :
    ioSplitRange bytes nsplit c = (0, bytes) := by
  unfold ioSplitRange
  rw [if_pos h]

theorem inChunk_iff {bytes nsplit c k : Nat} (h : ¬ nsplit ≤ 1) :
    InChunk bytes nsplit c k ↔
      c * (bytes / IO_PAGE_BYTES / nsplit * IO_PAGE_BYTES) ≤ k ∧
        k < if c = nsplit - 1 then
              max bytes (c * (bytes / IO_PAGE_BYTES / nsplit * IO_PAGE_BYTES))
            else (c + 1) * (bytes / IO_PAGE_BYTES / nsplit * IO_PAGE_BYTES) := by
  unfold InChunk ioSplitRange
  rw [if_neg h]
  show c * (bytes / IO_PAGE_BYTES / nsplit) * IO_PAGE_BYTES ≤ k ∧
    k < c * (bytes / IO_PAGE_BYTES / nsplit) * IO_PAGE_BYTES +
      (if c = nsplit - 1 then bytes - c * (bytes / IO_PAGE_BYTES / nsplit) * IO_PAGE_BYTES
       else bytes / IO_PAGE_BYTES / nsplit * IO_PAGE_BYTES) ↔ _
  rw [Nat.mul_assoc]
  generalize bytes / IO_PAGE_BYTES / nsplit * IO_PAGE_BYTES = w
  have hsucc : (c + 1) * w = c * w + w := Nat.succ_mul c w
  by_cases hc : c = nsplit - 1
  · rw [if_pos hc, if_pos hc]
    omega
  · rw [if_neg hc, if_neg hc, hsucc]

/-- **Disjoint**: a byte lies in one chunk. -/
theorem inChunk_disjoint {bytes nsplit c c' k : Nat} (hc : c < nsplit) (hc' : c' < nsplit)
    (h : InChunk bytes nsplit c k) (h' : InChunk bytes nsplit c' k) : c = c' := by
  by_cases hone : nsplit ≤ 1
  · omega
  · rw [inChunk_iff hone] at h h'
    -- of two different chunks the earlier one ends where the next begins
    have hlt : ∀ a b : Nat, a < b → b < nsplit →
        k < (if a = nsplit - 1 then
              max bytes (a * (bytes / IO_PAGE_BYTES / nsplit * IO_PAGE_BYTES))
            else (a + 1) * (bytes / IO_PAGE_BYTES / nsplit * IO_PAGE_BYTES)) →
        ¬ b * (bytes / IO_PAGE_BYTES / nsplit * IO_PAGE_BYTES) ≤ k := by
      intro a b hab hb hk
      rw [if_neg (by omega)] at hk
      have := Nat.mul_le_mul_right (bytes / IO_PAGE_BYTES / nsplit * IO_PAGE_BYTES)
        (show a + 1 ≤ b from hab)
      omega
    rcases Nat.lt_trichotomy c c' with hcc | hcc | hcc
    · exact absurd h'.1 (hlt c c' hcc hc' h.2)
    · exact hcc
    · exact absurd h.1 (hlt c' c hcc hc h'.2)

/-- **Complete**: every byte of the read lies in a chunk. -/
theorem exists_inChunk {bytes nsplit k : Nat} (hn : 0 < nsplit) (hk : k < bytes) :
    ∃ c < nsplit, InChunk bytes nsplit c k := by
  by_cases hone : nsplit ≤ 1
  · refine ⟨0, hn, ?_⟩
    unfold InChunk
    rw [ioSplitRange_one hone]
    omega
  · have hiff := fun c => @inChunk_iff bytes _ c k hone
    generalize bytes / IO_PAGE_BYTES / nsplit * IO_PAGE_BYTES = w at hiff
    by_cases hlast : (nsplit - 1) * w ≤ k
    · refine ⟨nsplit - 1, by omega, (hiff _).mpr ⟨hlast, ?_⟩⟩
      rw [if_pos rfl]
      omega
    · have hw : 0 < w := by
        rcases Nat.eq_zero_or_pos w with rfl | hw
        · omega
        · exact hw
      have hdiv : k / w < nsplit - 1 := (Nat.div_lt_iff_lt_mul hw).mpr (by omega)
      refine ⟨k / w, by omega, (hiff _).mpr ⟨Nat.div_mul_le_self k w, ?_⟩⟩
      rw [if_neg (by omega), Nat.mul_comm]
      exact Nat.lt_mul_div_succ k hw

theorem activeIoSplit_pos (bytes want : Nat) : 0 < activeIoSplit bytes want := by
  unfold activeIoSplit
  split <;> omega

/-! ### Slots -/

/-- What a cancellation does, by the state of the slot. -/
theorem AsyncSlot.cancel_cases (x : AsyncSlot) :
    ((x.state = .queued ∨ x.state = .error ∨ x.state = .ready) ∧ x.cancel = x.discard) ∨
    (x.state = .reading ∧ x.cancel = { x with canceled := true }) ∨
    ((x.state = .empty ∨ x.state = .consuming) ∧ x.cancel = x) := by
  obtain ⟨state⟩ := x
  cases state <;> simp [AsyncSlot.cancel, AsyncSlot.discard]

variable {env : AsyncEnv}

/-- The bytes of a chunk are those of the file. -/
def ChunkRead (env : AsyncEnv) (x : AsyncSlot) (c : Nat) : Prop :=
  ∀ k, InChunk x.bytes x.nsplit c k → x.buf k = env.file x.fd (x.offset + k)

/-- A reader's job on a slot: its chunk is claimed by it alone and not completed, and the slot is
    still the one it claimed. -/
structure JobInv (env : AsyncEnv) (x : AsyncSlot) (r : Nat) (j : ChunkJob) : Prop where
  reading : x.state = .reading
  fd : j.fd = x.fd
  baseOffset : j.baseOffset = x.offset
  bytes : j.bytes = x.bytes
  nsplit : j.nsplit = x.nsplit
  claimed : (j.chunk, r) ∈ x.claims
  notCompleted : j.chunk ∉ x.completed.map Prod.fst
  read : j.result = some true → ChunkRead env x j.chunk

/-- A slot that is not empty, with the jobs on it. -/
structure SlotLive (env : AsyncEnv) (jobs : Nat → Option ChunkJob) (x : AsyncSlot) : Prop where
  fd : x.fd = (env.layer x.layer).fd
  offset : x.offset = x.expert * (env.layer x.layer).expertStride
  bytes : x.bytes = (env.layer x.layer).expertStride
  nsplit : x.nsplit = activeIoSplit x.bytes env.ioSplit
  claims : x.claims.map Prod.fst = List.range x.chunksClaimed
  claimed_le : x.chunksClaimed ≤ x.nsplit
  completed_length : x.completed.length = x.chunksDone
  completed_nodup : (x.completed.map Prod.fst).Nodup
  completed_claimed : ∀ c ∈ x.completed.map Prod.fst, c < x.chunksClaimed
  /-- A claimed chunk is completed or in the hands of a reader. -/
  served : ∀ c < x.chunksClaimed, c ∈ x.completed.map Prod.fst ∨
    ∃ r j, jobs r = some j ∧ j.chunk = c
  noErr : x.anyErr = false → ∀ p ∈ x.completed, p.2 = true ∧ ChunkRead env x p.1
  queued : x.state = .queued → x.chunksClaimed = 0
  finished : x.state = .ready ∨ x.state = .error ∨ x.state = .consuming →
    x.chunksClaimed = x.nsplit ∧ x.chunksDone = x.nsplit
  good : x.state = .ready ∨ x.state = .consuming → x.anyErr = false
  unfinished : x.state = .reading → x.canceled = false → x.chunksDone = x.chunksClaimed →
    x.chunksClaimed < x.nsplit

/-- The invariant of one slot and the jobs on it. -/
structure SlotInv (env : AsyncEnv) (jobs : Nat → Option ChunkJob) (x : AsyncSlot) : Prop where
  canceled_reading : x.canceled = true → x.state = .reading
  job : ∀ r j, jobs r = some j → JobInv env x r j
  live : x.state ≠ .empty → SlotLive env jobs x

namespace SlotLive

variable {jobs : Nat → Option ChunkJob} {x : AsyncSlot}

theorem subperm (h : SlotLive env jobs x) :
    (x.completed.map Prod.fst).Subperm (List.range x.chunksClaimed) :=
  List.subperm_of_subset h.completed_nodup
    (fun c hc => List.mem_range.mpr (h.completed_claimed c hc))

theorem done_le (h : SlotLive env jobs x) : x.chunksDone ≤ x.chunksClaimed := by
  have := h.subperm.length_le
  rw [List.length_map, h.completed_length, List.length_range] at this
  exact this

/-- When as many chunks are completed as are claimed, they are the same ones. -/
theorem mem_completed (h : SlotLive env jobs x) (heq : x.chunksDone = x.chunksClaimed) {c : Nat}
    (hc : c < x.chunksClaimed) : c ∈ x.completed.map Prod.fst := by
  have hperm := h.subperm.perm_of_length_le (by
    rw [List.length_map, h.completed_length, List.length_range]
    omega)
  exact hperm.mem_iff.mpr (List.mem_range.mpr hc)

/-- **In flight**: fewer completed chunks than claimed ones leave a chunk with a reader. -/
theorem exists_job (h : SlotLive env jobs x) (hlt : x.chunksDone < x.chunksClaimed) :
    ∃ r j, jobs r = some j := by
  by_contra hnone
  have hall : ∀ c ∈ List.range x.chunksClaimed, c ∈ x.completed.map Prod.fst := by
    intro c hc
    obtain hc | ⟨r, j, hj, -⟩ := h.served c (List.mem_range.mp hc)
    · exact hc
    · exact absurd ⟨r, j, hj⟩ hnone
  have := (List.subperm_of_subset List.nodup_range hall).length_le
  rw [List.length_map, h.completed_length, List.length_range] at this
  omega

theorem claims_chunk_lt (h : SlotLive env jobs x) {c r : Nat} (hc : (c, r) ∈ x.claims) :
    c < x.chunksClaimed := by
  have : c ∈ x.claims.map Prod.fst := List.mem_map_of_mem hc
  rw [h.claims] at this
  exact List.mem_range.mp this

/-- A chunk is claimed by one reader. -/
theorem claims_unique (h : SlotLive env jobs x) {c r r' : Nat} (hr : (c, r) ∈ x.claims)
    (hr' : (c, r') ∈ x.claims) : r = r' := by
  have hnodup : (x.claims.map Prod.fst).Nodup := by
    rw [h.claims]
    exact List.nodup_range
  have := List.inj_on_of_nodup_map hnodup hr hr' rfl
  exact (Prod.mk.inj this).2

theorem record_eq (h : SlotLive env jobs x) (hgood : x.state = .ready ∨ x.state = .consuming)
    {k : Nat} (hk : k < x.bytes) : x.buf k = env.file x.fd (x.offset + k) := by
  have hfin := h.finished (by tauto)
  have hpos : 0 < x.nsplit := by
    rw [h.nsplit]
    exact activeIoSplit_pos _ _
  obtain ⟨c, hc, hin⟩ := exists_inChunk hpos hk
  have hmem := h.mem_completed (hfin.2.trans hfin.1.symm) (hfin.1 ▸ hc)
  obtain ⟨p, hp, rfl⟩ := List.mem_map.mp hmem
  exact (h.noErr (h.good hgood) p hp).2 k hin

end SlotLive

namespace SlotInv

variable {jobs : Nat → Option ChunkJob} {x : AsyncSlot}

/-- Only a slot that is being read has jobs. -/
theorem no_job (h : SlotInv env jobs x) (hx : x.state ≠ .reading) (r : Nat) : jobs r = none := by
  cases hj : jobs r with
  | none => rfl
  | some j => exact absurd (h.job r j hj).reading hx

/-- When all claimed chunks are completed, no reader has one. -/
theorem no_job_of_done (h : SlotInv env jobs x) (heq : x.chunksDone = x.chunksClaimed) (r : Nat) :
    jobs r = none := by
  cases hj : jobs r with
  | none => rfl
  | some j =>
    have hjob := h.job r j hj
    have hlive := h.live (by rw [hjob.reading]; simp)
    exact absurd (hlive.mem_completed heq (hlive.claims_chunk_lt hjob.claimed)) hjob.notCompleted

theorem fresh : SlotInv env (fun _ => none) .fresh where
  canceled_reading := by simp [AsyncSlot.fresh]
  job := by simp
  live := by simp [AsyncSlot.fresh]

/-- A slot without jobs may become empty. -/
theorem discard (h : ∀ r, jobs r = none) : SlotInv env jobs x.discard where
  canceled_reading := by simp [AsyncSlot.discard]
  job := by simp [h]
  live := by simp [AsyncSlot.discard]

theorem promote (h : SlotInv env jobs x) : SlotInv env jobs { x with speculative := false } where
  canceled_reading := h.canceled_reading
  job := fun r j hj => { h.job r j hj with }
  live := fun hne => { h.live hne with }

theorem cancel (h : SlotInv env jobs x) : SlotInv env jobs x.cancel := by
  obtain ⟨hs, hc⟩ | ⟨hs, hc⟩ | ⟨-, hc⟩ := x.cancel_cases
  · rw [hc]
    exact discard (h.no_job (by rcases hs with hs | hs | hs <;> simp [hs]))
  · rw [hc]
    have hlive := h.live (by simp [hs])
    exact {
      canceled_reading := fun _ => hs
      job := fun r j hj => { h.job r j hj with }
      live := fun _ => { hlive with unfinished := fun _ hc => by simp at hc } }
  · rw [hc]
    exact h

theorem fill (h : x.state = .empty) (hx : SlotInv env jobs x) (q : Submission) :
    SlotInv env jobs (x.fill env q) where
  canceled_reading := by simp [AsyncSlot.fill]
  job := by simp [hx.no_job (by simp [h])]
  live := fun _ => by constructor <;> simp [AsyncSlot.fill]

theorem take (h : SlotInv env jobs x) (hready : x.state = .ready) :
    SlotInv env jobs x.take where
  canceled_reading := by simp [AsyncSlot.take]
  job := by simp [h.no_job (by simp [hready])]
  live := by
    intro _
    have hlive := h.live (by simp [hready])
    exact { hlive with
      queued := by simp [AsyncSlot.take]
      finished := fun _ => hlive.finished (Or.inl hready)
      good := fun _ => hlive.good (Or.inl hready)
      unfinished := by simp [AsyncSlot.take] }

theorem claim (h : SlotInv env jobs x) {paused : Bool} (hc : x.claimable paused = true) {r : Nat}
    (i : Nat) (hr : jobs r = none) :
    SlotInv env (Function.update jobs r (some (x.claimJob i))) (x.claim r) := by
  obtain ⟨hstate, -, hlt, -⟩ := (AsyncSlot.claimable_iff).mp hc
  have hlive := h.live (by rcases hstate with hs | hs <;> simp [hs])
  have hnew : x.chunksClaimed ∉ x.completed.map Prod.fst := fun hmem =>
    absurd (hlive.completed_claimed _ hmem) (Nat.lt_irrefl _)
  refine ⟨fun _ => rfl, ?_, ?_⟩
  · intro r' j hj
    by_cases hrr : r' = r
    · obtain rfl := hrr
      rw [Function.update_self] at hj
      obtain rfl := Option.some.inj hj
      exact {
        reading := rfl
        fd := rfl
        baseOffset := rfl
        bytes := rfl
        nsplit := rfl
        claimed := by simp [AsyncSlot.claim, AsyncSlot.claimJob]
        notCompleted := hnew
        read := by simp [AsyncSlot.claimJob] }
    · rw [Function.update_of_ne hrr] at hj
      have hjob := h.job r' j hj
      exact { hjob with
        reading := rfl
        claimed := List.mem_append_left _ hjob.claimed }
  · intro _
    exact { hlive with
      claims := by
        show (x.claims ++ [(x.chunksClaimed, r)]).map Prod.fst = List.range (x.chunksClaimed + 1)
        rw [List.map_append, hlive.claims, List.range_succ]
        rfl
      claimed_le := hlt
      completed_claimed := fun c hc => Nat.lt_succ_of_lt (hlive.completed_claimed c hc)
      served := by
        intro c hc
        by_cases hcc : c = x.chunksClaimed
        · right
          exact ⟨r, x.claimJob i, Function.update_self .., hcc.symm⟩
        · obtain hdone | ⟨r', j, hj, hjc⟩ := hlive.served c (by
            have : c < x.chunksClaimed + 1 := hc
            omega)
          · exact Or.inl hdone
          · right
            refine ⟨r', j, ?_, hjc⟩
            rw [Function.update_of_ne]
            · exact hj
            · rintro rfl
              rw [hr] at hj
              exact absurd hj (by simp)
      queued := by simp [AsyncSlot.claim]
      finished := by simp [AsyncSlot.claim]
      good := by simp [AsyncSlot.claim]
      unfinished := by
        -- one claimed chunk more than are completed
        intro _ _ heq
        have := hlive.done_le
        have : x.chunksDone = x.chunksClaimed + 1 := heq
        omega }

theorem pread (h : SlotInv env jobs x) {r : Nat} {j : ChunkJob} (hr : jobs r = some j) (ok : Bool)
    (left : Nat → UInt8) :
    SlotInv env (Function.update jobs r (some { j with result := some ok }))
      (x.pread env j ok left) := by
  have hjob := h.job r j hr
  have hlive := h.live (by rw [hjob.reading]; simp)
  have hlt := hlive.claims_chunk_lt hjob.claimed
  -- the read touches no other chunk
  have hother : ∀ c < x.chunksClaimed, c ≠ j.chunk → ChunkRead env x c →
      ChunkRead env (x.pread env j ok left) c := by
    intro c hc hne hread k (hk : InChunk x.bytes x.nsplit c k)
    show (if InChunk j.bytes j.nsplit j.chunk k then _ else x.buf k) = _
    rw [if_neg, hread k hk]
    · rfl
    · intro hin
      rw [hjob.bytes, hjob.nsplit] at hin
      have hle := hlive.claimed_le
      exact hne (inChunk_disjoint (by omega) (by omega) hk hin)
  refine ⟨h.canceled_reading, ?_, ?_⟩
  · intro r' j' hj'
    by_cases hrr : r' = r
    · obtain rfl := hrr
      rw [Function.update_self] at hj'
      obtain rfl := Option.some.inj hj'
      refine { hjob with read := ?_ }
      intro hok k (hk : InChunk x.bytes x.nsplit j.chunk k)
      obtain rfl : ok = true := Option.some.inj hok
      show (if InChunk j.bytes j.nsplit j.chunk k then
        (if true then env.file j.fd (j.baseOffset + k) else left k) else x.buf k) = _
      rw [hjob.bytes, hjob.nsplit, if_pos hk, if_pos rfl, hjob.fd, hjob.baseOffset]
      rfl
    · rw [Function.update_of_ne hrr] at hj'
      have hjob' := h.job r' j' hj'
      refine { hjob' with read := ?_ }
      intro hok
      apply hother _ (hlive.claims_chunk_lt hjob'.claimed) _ (hjob'.read hok)
      intro heq
      have hc := hjob'.claimed
      rw [heq] at hc
      exact hrr (hlive.claims_unique hc hjob.claimed)
  · intro _
    exact { hlive with
      served := by
        intro c hc
        obtain hdone | ⟨r', j', hj', hjc⟩ := hlive.served c hc
        · exact Or.inl hdone
        · right
          by_cases hrr : r' = r
          · obtain rfl := hrr
            rw [hr] at hj'
            obtain rfl := Option.some.inj hj'
            exact ⟨r', _, Function.update_self .., hjc⟩
          · exact ⟨r', j', by rw [Function.update_of_ne hrr, hj'], hjc⟩
      noErr := by
        intro herr p hp
        obtain ⟨hp1, hp2⟩ := hlive.noErr herr p hp
        have hmem : p.1 ∈ x.completed.map Prod.fst := List.mem_map_of_mem hp
        refine ⟨hp1, hother p.1 (hlive.completed_claimed _ hmem) ?_ hp2⟩
        intro heq
        rw [heq] at hmem
        exact hjob.notCompleted hmem }

/-- The count of a completed chunk, in a slot that is canceled. -/
theorem countDone (h : SlotInv env jobs x) {r : Nat} {j : ChunkJob} (hr : jobs r = some j)
    {ok : Bool} (hres : j.result = some ok) :
    SlotInv env (Function.update jobs r none) { x.countDone j ok with canceled := true } := by
  have hjob := h.job r j hr
  have hlive := h.live (by rw [hjob.reading]; simp)
  refine ⟨fun _ => hjob.reading, ?_, ?_⟩
  · intro r' j' hj'
    have hrr : r' ≠ r := by
      rintro rfl
      rw [Function.update_self] at hj'
      exact absurd hj' (by simp)
    rw [Function.update_of_ne hrr] at hj'
    have hjob' := h.job r' j' hj'
    refine { hjob' with notCompleted := ?_ }
    intro hmem
    obtain heq | hmem := List.mem_cons.mp hmem
    · -- the chunk of another reader is another chunk
      have hc := hjob'.claimed
      rw [heq] at hc
      exact hrr (hlive.claims_unique hc hjob.claimed)
    · exact hjob'.notCompleted hmem
  · intro _
    exact { hlive with
      completed_length := congrArg (· + 1) hlive.completed_length
      completed_nodup := List.nodup_cons.mpr ⟨hjob.notCompleted, hlive.completed_nodup⟩
      completed_claimed := by
        intro c hc
        obtain rfl | hc := List.mem_cons.mp hc
        · exact hlive.claims_chunk_lt hjob.claimed
        · exact hlive.completed_claimed c hc
      served := by
        intro c hc
        obtain hdone | ⟨r', j', hj', hjc⟩ := hlive.served c hc
        · exact Or.inl (List.mem_cons_of_mem _ hdone)
        · by_cases hrr : r' = r
          · obtain rfl := hrr
            rw [hr] at hj'
            obtain rfl := Option.some.inj hj'
            left
            rw [← hjc]
            exact List.mem_cons_self
          · exact Or.inr ⟨r', j', by rw [Function.update_of_ne hrr, hj'], hjc⟩
      noErr := by
        intro herr p hp
        have hboth : x.anyErr = false ∧ ok = true := by simpa [AsyncSlot.countDone] using herr
        obtain ⟨herr, hok⟩ := hboth
        obtain rfl | hp := List.mem_cons.mp hp
        · exact ⟨hok, hjob.read (hres.trans (congrArg some hok))⟩
        · exact hlive.noErr herr p hp
      finished := fun hs => by
        have : x.state = .ready ∨ x.state = .error ∨ x.state = .consuming := hs
        simp [hjob.reading] at this
      good := fun hs => by
        have : x.state = .ready ∨ x.state = .consuming := hs
        simp [hjob.reading] at this
      unfinished := fun _ hc => absurd hc (by simp) }

theorem complete (h : SlotInv env jobs x) {r : Nat} {j : ChunkJob} (hr : jobs r = some j)
    {ok : Bool} (hres : j.result = some ok) :
    SlotInv env (Function.update jobs r none) (x.complete j ok) := by
  have hjob := h.job r j hr
  have hcount := h.countDone hr hres
  have hlive := hcount.live (by
    show x.state ≠ .empty
    rw [hjob.reading]
    simp)
  unfold AsyncSlot.complete
  show SlotInv env _ (if x.canceled = true then
    (if x.chunksDone + 1 = x.chunksClaimed then (x.countDone j ok).discard else x.countDone j ok)
    else if j.nsplit ≤ x.chunksClaimed ∧ x.chunksDone + 1 = x.chunksClaimed then
      { x.countDone j ok with state := if (x.countDone j ok).anyErr then .error else .ready }
    else x.countDone j ok)
  by_cases hcan : x.canceled = true
  · rw [if_pos hcan]
    by_cases hdone : x.chunksDone + 1 = x.chunksClaimed
    · rw [if_pos hdone]
      exact discard (hcount.no_job_of_done hdone)
    · rw [if_neg hdone]
      have hsame : x.countDone j ok = { x.countDone j ok with canceled := true } := by
        unfold AsyncSlot.countDone
        rw [hcan]
      rw [hsame]
      exact hcount
  · rw [if_neg hcan]
    by_cases hfin : j.nsplit ≤ x.chunksClaimed ∧ x.chunksDone + 1 = x.chunksClaimed
    · rw [if_pos hfin]
      -- all chunks are claimed and completed, so that no reader is left
      have hfull : x.chunksClaimed = x.nsplit := by
        have := hlive.claimed_le
        have := hjob.nsplit
        exact Nat.le_antisymm hlive.claimed_le (this ▸ hfin.1)
      refine ⟨fun hc => absurd hc hcan, ?_, fun _ => ?_⟩
      · intro r' j' hj'
        rw [hcount.no_job_of_done hfin.2 r'] at hj'
        exact absurd hj' (by simp)
      · refine { hlive with queued := ?_, finished := ?_, good := ?_, unfinished := ?_ }
        · intro hq
          cases herr : (x.countDone j ok).anyErr <;> simp [herr] at hq
        · exact fun _ => ⟨hfull, hfin.2.trans hfull⟩
        · intro hs
          cases herr : (x.countDone j ok).anyErr
          · rfl
          · simp [herr] at hs
        · intro hs
          cases herr : (x.countDone j ok).anyErr <;> simp [herr] at hs
    · rw [if_neg hfin]
      refine ⟨fun hc => absurd hc hcan, fun r' j' hj' => { hcount.job r' j' hj' with }, fun _ => ?_⟩
      refine { hlive with unfinished := ?_ }
      intro _ _ hdone
      have hle : x.chunksClaimed ≤ x.nsplit := hlive.claimed_le
      have hnot : ¬ j.nsplit ≤ x.chunksClaimed := fun hn => hfin ⟨hn, hdone⟩
      rw [hjob.nsplit] at hnot
      show x.chunksClaimed < x.nsplit
      omega

end SlotInv

/-! ### The pool -/

/-- The job of a reader, if it is on slot `i`. -/
def ReaderThread.jobOn (t : ReaderThread) (i : Nat) : Option ChunkJob :=
  match t with
  | .reading job => if job.slot = i then some job else none
  | _            => none

theorem ReaderThread.jobOn_self (job : ChunkJob) :
    (ReaderThread.reading job).jobOn job.slot = some job := if_pos rfl

theorem ReaderThread.jobOn_ne {job : ChunkJob} {i : Nat} (h : i ≠ job.slot) :
    (ReaderThread.reading job).jobOn i = none := if_neg (fun hs => h hs.symm)

/-- The jobs on a slot. -/
def AsyncReader.jobsOn (s : AsyncReader) (i : Nat) (r : Nat) : Option ChunkJob :=
  (s.readers r).jobOn i

/-- The bytes of an expert's record in a family. -/
def recordBanks (env : AsyncEnv) (layer expert : Nat) (f : Family) : List UInt8 :=
  (List.range ((env.layer layer).familyBytes f)).map (fun k =>
    env.file (env.layer layer).fd
      (expert * (env.layer layer).expertStride + ((env.layer layer).familyOffset f + k)))

/-- What the consumer holds. -/
def ConsumerInv (env : AsyncEnv) (s : AsyncReader) : Consumer → Prop
  | .uploading i layer expert =>
    (s.slots i).state = .consuming ∧ (s.slots i).layer = layer ∧ (s.slots i).expert = expert
  | .uploaded i layer expert banks =>
    (s.slots i).state = .consuming ∧ ∀ b, banks = some b → b = recordBanks env layer expert
  | _ => True

/-- The invariant of the pool. -/
structure AsyncInv (env : AsyncEnv) (s : AsyncReader) : Prop where
  slot : ∀ i, SlotInv env (s.jobsOn i) (s.slots i)
  consumer : ConsumerInv env s s.consumer
  staged : ∀ t ∈ s.staged, t.banks = recordBanks env t.layer t.expert

/-- A slot that is being consumed stays as it is. -/
def KeepsConsuming (x y : AsyncSlot) : Prop :=
  x.state = .consuming →
    y.state = .consuming ∧ y.layer = x.layer ∧ y.expert = x.expert

theorem ConsumerInv.mono {s t : AsyncReader} {c : Consumer}
    (hkeep : ∀ i, KeepsConsuming (s.slots i) (t.slots i)) (h : ConsumerInv env s c) :
    ConsumerInv env t c := by
  cases c with
  | idle | waiting | woken => trivial
  | uploading i layer expert =>
    obtain ⟨hs, hl, he⟩ := h
    obtain ⟨hs', hl', he'⟩ := hkeep i hs
    exact ⟨hs', hl'.trans hl, he'.trans he⟩
  | uploaded i layer expert banks => exact ⟨(hkeep i h.1).1, h.2⟩

namespace AsyncReader

@[simp] theorem broadcast_slots (s : AsyncReader) : s.broadcast.slots = s.slots := rfl
@[simp] theorem broadcast_staged (s : AsyncReader) : s.broadcast.staged = s.staged := rfl
@[simp] theorem setSlot_readers (s : AsyncReader) (i : Nat) (x : AsyncSlot) :
    (s.setSlot i x).readers = s.readers := rfl
@[simp] theorem setSlot_consumer (s : AsyncReader) (i : Nat) (x : AsyncSlot) :
    (s.setSlot i x).consumer = s.consumer := rfl

theorem setSlot_slots_self (s : AsyncReader) (i : Nat) (x : AsyncSlot) :
    (s.setSlot i x).slots i = x := Function.update_self ..

theorem setSlot_slots_ne (s : AsyncReader) {i i' : Nat} (x : AsyncSlot) (h : i' ≠ i) :
    (s.setSlot i x).slots i' = s.slots i' := Function.update_of_ne h ..

theorem jobsOn_broadcast (s : AsyncReader) (i : Nat) : s.broadcast.jobsOn i = s.jobsOn i := by
  funext r
  unfold jobsOn broadcast
  cases hr : s.readers r <;> simp [hr]
  rfl

/-- The jobs on a slot, after one reader has changed. -/
theorem jobsOn_update (s : AsyncReader) (r i : Nat) (t : ReaderThread) :
    ({ s with readers := Function.update s.readers r t } : AsyncReader).jobsOn i =
      Function.update (s.jobsOn i) r (t.jobOn i) := by
  funext r'
  unfold jobsOn
  by_cases h : r' = r
  · obtain rfl := h
    simp only [Function.update_self]
  · simp only [Function.update_of_ne h]

theorem broadcast_consumerInv {s : AsyncReader} (h : ConsumerInv env s s.consumer) :
    ConsumerInv env s.broadcast s.broadcast.consumer := by
  unfold broadcast
  cases hc : s.consumer <;> rw [hc] at h <;> exact h

end AsyncReader

namespace AsyncInv

variable {s : AsyncReader}

theorem broadcast (h : AsyncInv env s) : AsyncInv env s.broadcast where
  slot := by
    intro i
    rw [AsyncReader.jobsOn_broadcast]
    exact h.slot i
  consumer := AsyncReader.broadcast_consumerInv h.consumer
  staged := h.staged

theorem setSlot_consumer (h : AsyncInv env s) {i : Nat} {x : AsyncSlot}
    (hkeep : KeepsConsuming (s.slots i) x) : ConsumerInv env (s.setSlot i x) s.consumer := by
  apply ConsumerInv.mono _ h.consumer
  intro i'
  by_cases hi : i' = i
  · obtain rfl := hi
    rw [AsyncReader.setSlot_slots_self]
    exact hkeep
  · rw [AsyncReader.setSlot_slots_ne _ _ hi]
    exact fun hs => ⟨hs, rfl, rfl⟩

/-- One slot changes, and the readers keep their jobs. -/
theorem setSlot (h : AsyncInv env s) {i : Nat} {x : AsyncSlot}
    (hx : SlotInv env (s.jobsOn i) x) (hkeep : KeepsConsuming (s.slots i) x) :
    AsyncInv env (s.setSlot i x) where
  slot := by
    intro i'
    by_cases hi : i' = i
    · obtain rfl := hi
      rw [AsyncReader.setSlot_slots_self]
      exact hx
    · rw [AsyncReader.setSlot_slots_ne _ _ hi]
      exact h.slot i'
  consumer := h.setSlot_consumer hkeep
  staged := h.staged

/-- One slot changes together with one reader, whose job is on that slot before and after. -/
theorem setSlot_reader (h : AsyncInv env s) {i r : Nat} {x : AsyncSlot} {t : ReaderThread}
    (hbefore : ∀ i' ≠ i, (s.readers r).jobOn i' = none) (hafter : ∀ i' ≠ i, t.jobOn i' = none)
    (hx : SlotInv env (Function.update (s.jobsOn i) r (t.jobOn i)) x)
    (hkeep : KeepsConsuming (s.slots i) x) :
    AsyncInv env { s.setSlot i x with readers := Function.update s.readers r t } where
  slot := by
    intro i'
    have hjobs := AsyncReader.jobsOn_update (s.setSlot i x) r i' t
    rw [AsyncReader.setSlot_readers] at hjobs
    rw [hjobs]
    by_cases hi : i' = i
    · obtain rfl := hi
      show SlotInv env _ ((s.setSlot i' x).slots i')
      rw [AsyncReader.setSlot_slots_self]
      exact hx
    · have hr : t.jobOn i' = (s.setSlot i x).jobsOn i' r := by
        rw [hafter i' hi]
        exact (hbefore i' hi).symm
      rw [hr, Function.update_eq_self]
      show SlotInv env _ ((s.setSlot i x).slots i')
      rw [AsyncReader.setSlot_slots_ne _ _ hi]
      exact h.slot i'
  consumer := h.setSlot_consumer hkeep
  staged := h.staged

theorem keepsConsuming_of_ne {x y : AsyncSlot} (h : x.state ≠ .consuming) : KeepsConsuming x y :=
  fun hs => absurd hs h

/-- The consumer waits, wakes up or leaves. -/
theorem setConsumer (h : AsyncInv env s) {c : Consumer} (hc : ConsumerInv env s c) :
    AsyncInv env { s with consumer := c } where
  slot := h.slot
  consumer := hc
  staged := h.staged

/-! #### Reader threads -/

theorem scan (h : AsyncInv env s) {r : Nat} (hr : s.readers r = .ready) :
    AsyncInv env (s.scan env r) := by
  have hnone : ∀ i, (s.readers r).jobOn i = none := by
    intro i
    rw [hr]
    rfl
  unfold AsyncReader.scan
  cases hf : s.firstSlot env (fun x => x.claimable s.xlayerPaused) with
  | none =>
    refine ⟨?_, h.consumer, h.staged⟩
    intro i
    rw [AsyncReader.jobsOn_update, show ReaderThread.asleep.jobOn i = s.jobsOn i r from
      (hnone i).symm, Function.update_eq_self]
    exact h.slot i
  | some i =>
    have hc : (s.slots i).claimable s.xlayerPaused = true := by
      have := List.find?_some hf
      exact this
    show AsyncInv env { s.setSlot i ((s.slots i).claim r) with readers := _ }
    apply h.setSlot_reader
    · exact fun i' _ => hnone i'
    · exact fun i' hi => ReaderThread.jobOn_ne hi
    · rw [show (ReaderThread.reading ((s.slots i).claimJob i)).jobOn i = some _ from
        ReaderThread.jobOn_self _]
      exact (h.slot i).claim hc i (hnone i)
    · apply keepsConsuming_of_ne
      intro hs
      simp [AsyncSlot.claimable, hs] at hc

theorem pread (h : AsyncInv env s) {r : Nat} {j : ChunkJob} (hr : s.readers r = .reading j)
    (ok : Bool) (left : Nat → UInt8) : AsyncInv env (s.pread env r j ok left) := by
  have hjob : s.jobsOn j.slot r = some j := by
    unfold AsyncReader.jobsOn
    rw [hr, ReaderThread.jobOn_self]
  have hreading := ((h.slot j.slot).job r j hjob).reading
  apply h.setSlot_reader
  · intro i' hi
    rw [hr, ReaderThread.jobOn_ne hi]
  · exact fun i' hi => ReaderThread.jobOn_ne hi
  · rw [show (ReaderThread.reading { j with result := some ok }).jobOn j.slot = some _ from
      if_pos rfl]
    exact (h.slot j.slot).pread hjob ok left
  · exact keepsConsuming_of_ne (by simp [hreading])

theorem complete (h : AsyncInv env s) {r : Nat} {j : ChunkJob} (hr : s.readers r = .reading j)
    {ok : Bool} (hres : j.result = some ok) : AsyncInv env (s.complete r j ok) := by
  have hjob : s.jobsOn j.slot r = some j := by
    unfold AsyncReader.jobsOn
    rw [hr, ReaderThread.jobOn_self]
  have hreading := ((h.slot j.slot).job r j hjob).reading
  apply AsyncInv.broadcast
  apply h.setSlot_reader
  · intro i' hi
    rw [hr, ReaderThread.jobOn_ne hi]
  · exact fun _ _ => rfl
  · exact (h.slot j.slot).complete hjob hres
  · exact keepsConsuming_of_ne (by simp [hreading])

/-! #### Clients -/

theorem promote (h : AsyncInv env s) (i : Nat) : AsyncInv env (s.promote i) := by
  unfold AsyncReader.promote
  split
  · apply AsyncInv.broadcast
    exact h.setSlot (h.slot i).promote (fun hs => ⟨hs, rfl, rfl⟩)
  · exact h

theorem fill (h : AsyncInv env s) {i : Nat} (hi : (s.slots i).state = .empty) (q : Submission) :
    AsyncInv env (s.fill env i q) := by
  apply AsyncInv.broadcast
  exact h.setSlot (SlotInv.fill hi (h.slot i) q) (keepsConsuming_of_ne (by simp [hi]))

theorem firstSlot_spec {p : AsyncSlot → Bool} {i : Nat} (h : s.firstSlot env p = some i) :
    i < env.nSlots ∧ p (s.slots i) = true :=
  ⟨List.mem_range.mp (List.mem_of_find?_eq_some h), by simpa using List.find?_some h⟩

theorem submit (h : AsyncInv env s) (q : Submission) : AsyncInv env (s.submit env q) := by
  unfold AsyncReader.submit
  dsimp only
  split
  · exact h
  · split
    · split
      · exact h
      · exact h.promote _
    · split
      · next i hi =>
        exact h.fill (by simpa using (firstSlot_spec hi).2) q
      · exact ⟨h.slot, h.consumer, h.staged⟩

theorem resume (h : AsyncInv env s) (k : Nat) : AsyncInv env (s.resume env k) := by
  unfold AsyncReader.resume
  split
  · exact h
  · next q _ =>
    split
    · next i hi =>
      have := h.fill (by simpa using (firstSlot_spec hi).2) q
      exact ⟨this.slot, this.consumer, this.staged⟩
    · exact h

theorem cancelWhere (h : AsyncInv env s) (p : AsyncSlot → Bool) :
    AsyncInv env (s.cancelWhere env p) := by
  apply AsyncInv.broadcast
  refine ⟨?_, ?_, h.staged⟩
  · intro i
    show SlotInv env (s.jobsOn i) (if i < env.nSlots ∧ p (s.slots i) then _ else _)
    split
    · exact (h.slot i).cancel
    · exact h.slot i
  · refine ConsumerInv.mono ?_ h.consumer
    intro i hs
    have hcancel : (s.slots i).cancel = s.slots i := by
      unfold AsyncSlot.cancel
      rw [hs]
    have hsame : (if i < env.nSlots ∧ p (s.slots i) then (s.slots i).cancel else s.slots i) =
        s.slots i := by
      rw [hcancel, ite_self]
    exact ⟨(congrArg AsyncSlot.state hsame).trans hs, congrArg AsyncSlot.layer hsame,
      congrArg AsyncSlot.expert hsame⟩

theorem setPaused (h : AsyncInv env s) (paused : Bool) : AsyncInv env (s.setPaused paused) := by
  have hset : AsyncInv env { s with xlayerPaused := paused } := ⟨h.slot, h.consumer, h.staged⟩
  unfold AsyncReader.setPaused
  dsimp only
  split
  · exact hset
  · exact hset.broadcast

/-! #### The consumer -/

theorem consumeTurn (h : AsyncInv env s) (layer expert : Nat) :
    AsyncInv env (s.consumeTurn env layer expert) := by
  unfold AsyncReader.consumeTurn
  cases hf : s.findLocked env layer expert with
  | none => exact h.setConsumer trivial
  | some i =>
    dsimp only
    have ht := h.promote i
    have howns : (s.promote i).slots i = s.slots i ∨
        (s.promote i).slots i = { s.slots i with speculative := false } := by
      unfold AsyncReader.promote
      split
      · exact Or.inr (AsyncReader.setSlot_slots_self _ _ _)
      · exact Or.inl rfl
    have hkey : ((s.promote i).slots i).layer = layer ∧ ((s.promote i).slots i).expert = expert := by
      have := ((AsyncSlot.owns_iff).mp (firstSlot_spec hf).2).2
      rcases howns with howns | howns <;> rw [howns] <;> exact this
    generalize s.promote i = t at ht hkey
    split
    · next hready =>
      have htake := ht.setSlot ((ht.slot i).take hready) (keepsConsuming_of_ne (by simp [hready]))
      apply htake.setConsumer
      show ((t.setSlot i _).slots i).state = _ ∧ ((t.setSlot i _).slots i).layer = _ ∧
        ((t.setSlot i _).slots i).expert = _
      rw [AsyncReader.setSlot_slots_self]
      exact ⟨rfl, hkey⟩
    · next herr =>
      have hdiscard : AsyncInv env (t.setSlot i (t.slots i).discard) := ht.setSlot
        (SlotInv.discard (fun r => (ht.slot i).no_job (by simp [herr]) r))
        (keepsConsuming_of_ne (by simp [herr]))
      exact hdiscard.broadcast.setConsumer trivial
    · exact ht.setConsumer trivial

theorem uploadBanks_eq {x : AsyncSlot} {layer expert : Nat} (hx : SlotLive env jobs x)
    (hs : x.state = .consuming) (hl : x.layer = layer) (he : x.expert = expert) :
    AsyncReader.uploadBanks env layer x.buf = recordBanks env layer expert := by
  funext f
  unfold AsyncReader.uploadBanks recordBanks
  apply List.map_congr_left
  intro k hk
  have hfits := (env.layer layer).fits f
  have hk := List.mem_range.mp hk
  have hbytes := hx.bytes
  rw [hl] at hbytes
  rw [hx.record_eq (Or.inr hs) (by omega), hx.fd, hx.offset, hl, he]

theorem upload (h : AsyncInv env s) {i layer expert : Nat}
    (hc : s.consumer = .uploading i layer expert) (ok : Bool) :
    AsyncInv env (s.upload env i layer expert ok) := by
  have hcons := h.consumer
  rw [hc] at hcons
  obtain ⟨hs, hl, he⟩ := hcons
  apply h.setConsumer
  refine ⟨hs, ?_⟩
  intro b hb
  cases ok with
  | false => exact absurd hb (by simp)
  | true =>
    rw [← Option.some.inj hb]
    exact uploadBanks_eq ((h.slot i).live (by simp [hs])) hs hl he

theorem release (h : AsyncInv env s) {i layer expert : Nat}
    {banks : Option (Family → List UInt8)} (hc : s.consumer = .uploaded i layer expert banks) :
    AsyncInv env (s.release i layer expert banks) := by
  have hcons := h.consumer
  rw [hc] at hcons
  obtain ⟨hs, hbanks⟩ := hcons
  -- the slot leaves the consumer, which holds no other one
  have hidle : AsyncInv env { s with consumer := .idle } := h.setConsumer trivial
  have hslot : ∀ i', SlotInv env (s.jobsOn i') ((s.setSlot i (s.slots i).discard).slots i') := by
    intro i'
    by_cases hi : i' = i
    · obtain rfl := hi
      rw [AsyncReader.setSlot_slots_self]
      exact SlotInv.discard (fun r => (h.slot i').no_job (by simp [hs]) r)
    · rw [AsyncReader.setSlot_slots_ne _ _ hi]
      exact h.slot i'
  unfold AsyncReader.release
  dsimp only
  refine ⟨?_, trivial, ?_⟩
  · intro i'
    have := AsyncReader.jobsOn_broadcast (s.setSlot i (s.slots i).discard) i'
    show SlotInv env ((s.setSlot i (s.slots i).discard).broadcast.jobsOn i') _
    rw [this]
    exact hslot i'
  · intro t ht
    cases banks with
    | none => exact h.staged t ht
    | some b =>
      obtain ht | ht := List.mem_append.mp ht
      · exact h.staged t ht
      · rw [List.mem_singleton.mp ht]
        exact hbanks b rfl

/-! #### Runs -/

theorem init : AsyncInv env .init where
  slot := fun _ => SlotInv.fresh
  consumer := trivial
  staged := by simp [AsyncReader.init]

/-- **Step.** Every action keeps the invariant. -/
theorem step (h : AsyncInv env s) (a : AsyncAction) : AsyncInv env (s.step env a) := by
  have hmove := s.moves env a
  generalize s.step env a = t at hmove ⊢
  cases hmove with
  | stays => exact h
  | scan hr => exact h.scan hr
  | pread hr ok left => exact h.pread hr ok left
  | complete hr hres => exact h.complete hr hres
  | @readerWakes r hr =>
    refine ⟨?_, h.consumer, h.staged⟩
    intro i
    have hnone : s.jobsOn i r = none := by
      unfold AsyncReader.jobsOn
      rw [hr]
      rfl
    rw [AsyncReader.jobsOn_update, show ReaderThread.ready.jobOn i = s.jobsOn i r from
      hnone.symm, Function.update_eq_self]
    exact h.slot i
  | submit q => exact h.submit q
  | resume k => exact h.resume k
  | setPaused paused => exact h.setPaused paused
  | cancelAll => exact h.cancelWhere (fun _ => true)
  | cancelExpert layer expert =>
    unfold AsyncReader.cancelExpert
    split
    · exact h
    · exact h.cancelWhere _
  | cancelLayerMispredicted layer counts =>
    exact h.cancelWhere (AsyncReader.mispredicted env layer counts)
  | consume layer expert => exact h.consumeTurn layer expert
  | consumerWakes => exact h.setConsumer trivial
  | consumerTurn => exact h.consumeTurn _ _
  | upload hc ok => exact h.upload hc ok
  | release hc => exact h.release hc

/-- **Run.** The invariant holds in every state of a run. -/
theorem run (env : AsyncEnv) (as : List AsyncAction) :
    AsyncInv env (as.foldl (AsyncReader.step env) .init) := by
  induction as using List.reverseRecOn with
  | nil => exact AsyncInv.init
  | append_singleton as a ih =>
    rw [List.foldl_append]
    exact ih.step a

end AsyncInv

/-- **Delivery.** In every state of every run a ready slot is one whose chunks have each been
    claimed once and read without error, so that its buffer is its part of the file, which is the
    record of its expert; and what the consumer has staged are records. -/
theorem async_reader_delivers (env : AsyncEnv) (as : List AsyncAction) :
    (∀ i, ((as.foldl (AsyncReader.step env) .init).slots i).state = .ready →
      let x := (as.foldl (AsyncReader.step env) .init).slots i
      x.claims.map Prod.fst = List.range x.nsplit ∧
      (∀ c < x.nsplit, (c, true) ∈ x.completed ∧ (c, false) ∉ x.completed) ∧
      (∀ k < x.bytes, x.buf k = env.file x.fd (x.offset + k)) ∧
      x.fd = (env.layer x.layer).fd ∧ x.bytes = (env.layer x.layer).expertStride ∧
      x.offset = x.expert * (env.layer x.layer).expertStride) ∧
    ∀ t ∈ (as.foldl (AsyncReader.step env) .init).staged,
      t.banks = recordBanks env t.layer t.expert := by
  have hinv := AsyncInv.run env as
  generalize as.foldl (AsyncReader.step env) .init = s at hinv
  refine ⟨?_, hinv.staged⟩
  intro i hs
  have hlive := (hinv.slot i).live (by simp [hs])
  obtain ⟨hclaimed, hdone⟩ := hlive.finished (Or.inl hs)
  have hall := hlive.noErr (hlive.good (Or.inl hs))
  refine ⟨hclaimed ▸ hlive.claims, ?_, fun k hk => hlive.record_eq (Or.inl hs) hk, hlive.fd,
    hlive.bytes, hlive.offset⟩
  intro c hc
  obtain ⟨p, hp, rfl⟩ := List.mem_map.mp
    (hlive.mem_completed (hdone.trans hclaimed.symm) (hclaimed.symm ▸ hc))
  refine ⟨?_, fun hfalse => absurd (hall _ hfalse).1 (by simp)⟩
  rw [← (hall p hp).1]
  exact hp

end DS4.FlashMoe
