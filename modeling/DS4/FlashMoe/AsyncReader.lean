import DS4.Lib.Run
import Mathlib.Logic.Function.Basic

namespace DS4.FlashMoe

/-!
# Flash-MoE — the asynchronous prefill reader

Reader threads stream expert records from the sidecar files into a pool of slots, chunk by chunk;
clients submit and cancel reads, and one consumer uploads what has been read.  A section under
the mutex is one action of the machine, and so is each `pread`.

* `Sidecar`, `ioSplitRange` — where a record lies, and the chunks of a read.
* `AsyncSlot`, `AsyncReader` — the pool; `claims` and `completed` of a slot record its history.
* `AsyncAction`, `AsyncReader.step` — the machine.

A broadcast ends the wait of every thread; a wait may also end by itself.  The number of slots,
the number of readers and the split are parameters.
-/

/-! ### Records and chunks -/

/-- The tensors of an expert record. -/
inductive Family where
  | gate
  | up
  | down
  deriving DecidableEq

/-- `ds4_flash_moe_layer_sidecar`: the loader refuses a layer whose families exceed its stride. -/
structure Sidecar where
  fd : Nat
  expertStride : Nat
  familyOffset : Family → Nat
  familyBytes : Family → Nat
  fits : ∀ f, familyOffset f + familyBytes f ≤ expertStride

/-- `DS4_FLASH_MOE_IO_PAGE_BYTES` -/
def IO_PAGE_BYTES : Nat := 16384

/-- `DS4_FLASH_MOE_MAX_IO_SPLIT` -/
def MAX_IO_SPLIT : Nat := 16

/-- `flash_moe_active_io_split` -/
def activeIoSplit (bytes want : Nat) : Nat :=
  if want ≤ 1 ∨ bytes = 0 ∨ bytes % IO_PAGE_BYTES ≠ 0 then 1
  else max (min (min want (bytes / IO_PAGE_BYTES)) MAX_IO_SPLIT) 1

/-- `flash_moe_io_split_range`: the offset and the length of a chunk. -/
def ioSplitRange (bytes nsplit c : Nat) : Nat × Nat :=
  if nsplit ≤ 1 then (0, bytes)
  else
    let ppc := bytes / IO_PAGE_BYTES / nsplit
    let off := c * ppc * IO_PAGE_BYTES
    (off, if c = nsplit - 1 then bytes - off else ppc * IO_PAGE_BYTES)

/-- Does a byte of the record lie in a chunk? -/
def InChunk (bytes nsplit c x : Nat) : Prop :=
  (ioSplitRange bytes nsplit c).1 ≤ x ∧
    x < (ioSplitRange bytes nsplit c).1 + (ioSplitRange bytes nsplit c).2

instance (bytes nsplit c x : Nat) : Decidable (InChunk bytes nsplit c x) := by
  unfold InChunk
  infer_instance

/-- What the reader is built with, and the files it reads. -/
structure AsyncEnv where
  /-- `DS4_FLASH_PREFILL_ASYNC_SLOTS` -/
  nSlots : Nat
  nReaders : Nat
  /-- `DS4_N_EXPERT` -/
  nExpert : Nat
  ioSplit : Nat
  bufBytes : Nat
  layer : Nat → Sidecar
  /-- The bytes of a file. -/
  file : Nat → Nat → UInt8
  /-- An initialisation that starts no thread fails. -/
  readers_pos : 0 < nReaders

/-! ### The pool -/

/-- `ds4_flash_async_state` -/
inductive AsyncState where
  | empty
  | queued
  | reading
  | ready
  | error
  | consuming
  deriving DecidableEq

/-- `ds4_flash_prefill_async_slot`. `claims` lists the chunks claimed since the slot was filled,
    with their readers, and `completed` the chunks that were read, with their results. -/
structure AsyncSlot where
  state : AsyncState
  layer : Nat
  expert : Nat
  fd : Nat
  offset : Nat
  bytes : Nat
  canceled : Bool
  speculative : Bool
  anyErr : Bool
  nsplit : Nat
  chunksClaimed : Nat
  chunksDone : Nat
  buf : Nat → UInt8
  claims : List (Nat × Nat)
  completed : List (Nat × Bool)

/-- What a reader thread keeps of the slot while it reads a chunk, and the result of its read. -/
structure ChunkJob where
  slot : Nat
  chunk : Nat
  fd : Nat
  baseOffset : Nat
  bytes : Nat
  nsplit : Nat
  result : Option Bool
  deriving DecidableEq

/-- A reader thread: before its scan, in `pthread_cond_wait`, or with a chunk. -/
inductive ReaderThread where
  | ready
  | asleep
  | reading (job : ChunkJob)
  deriving DecidableEq

/-- The consumer: outside, in `pthread_cond_wait`, woken, or with a slot of its own. -/
inductive Consumer where
  | idle
  | waiting (layer expert : Nat)
  | woken (layer expert : Nat)
  | uploading (slot layer expert : Nat)
  | uploaded (slot layer expert : Nat) (banks : Option (Family → List UInt8))

/-- A `ds4_flash_prefill_async_submit` that waits for an empty slot. -/
structure Submission where
  layer : Nat
  expert : Nat
  speculative : Bool
  deriving DecidableEq

/-- What a successful `metal_graph_flash_moe_stage_prefill_expert_async` has put into the bank. -/
structure Staged where
  layer : Nat
  expert : Nat
  banks : Family → List UInt8

/-- `ds4_flash_prefill_async_reader` with its threads and its clients. -/
structure AsyncReader where
  slots : Nat → AsyncSlot
  readers : Nat → ReaderThread
  xlayerPaused : Bool
  submissions : List Submission
  consumer : Consumer
  staged : List Staged

namespace AsyncSlot

/-- A slot of a new pool. -/
def fresh : AsyncSlot where
  state := .empty
  layer := 0
  expert := 0
  fd := 0
  offset := 0
  bytes := 0
  canceled := false
  speculative := false
  anyErr := false
  nsplit := 0
  chunksClaimed := 0
  chunksDone := 0
  buf := fun _ => 0
  claims := []
  completed := []

/-- May a reader claim a chunk of the slot? -/
def claimable (x : AsyncSlot) (paused : Bool) : Bool :=
  (x.state = .queued || x.state = .reading) && !x.canceled &&
    decide (x.chunksClaimed < x.nsplit) && !(paused && x.speculative)

/-- Does the slot belong to an expert of a layer? -/
def owns (x : AsyncSlot) (layer expert : Nat) : Bool :=
  x.state ≠ .empty && x.layer = layer && x.expert = expert

theorem owns_iff {x : AsyncSlot} {layer expert : Nat} :
    x.owns layer expert = true ↔ x.state ≠ .empty ∧ x.layer = layer ∧ x.expert = expert := by
  simp [owns, and_assoc]

theorem claimable_iff {x : AsyncSlot} {paused : Bool} :
    x.claimable paused = true ↔ (x.state = .queued ∨ x.state = .reading) ∧ x.canceled = false ∧
      x.chunksClaimed < x.nsplit ∧ (paused && x.speculative) = false := by
  simp only [claimable, Bool.and_eq_true, Bool.or_eq_true, decide_eq_true_eq, Bool.not_eq_true',
    and_assoc]

/-- The body of the cancel loops. -/
def cancel (x : AsyncSlot) : AsyncSlot :=
  match x.state with
  | .queued | .error | .ready => { x with state := .empty, canceled := false }
  | .reading => { x with canceled := true }
  | .empty | .consuming => x

/-- The slot after a reader has claimed its next chunk. -/
def claim (x : AsyncSlot) (r : Nat) : AsyncSlot :=
  { x with
    state := .reading
    chunksClaimed := x.chunksClaimed + 1
    claims := x.claims ++ [(x.chunksClaimed, r)] }

/-- What the reader keeps of the slot it claims a chunk of. -/
def claimJob (x : AsyncSlot) (i : Nat) : ChunkJob where
  slot := i
  chunk := x.chunksClaimed
  fd := x.fd
  baseOffset := x.offset
  bytes := x.bytes
  nsplit := x.nsplit
  result := none

/-- `flash_moe_pread_full` of a chunk; a read that fails leaves any bytes there. -/
def pread (env : AsyncEnv) (x : AsyncSlot) (job : ChunkJob) (ok : Bool) (left : Nat → UInt8) :
    AsyncSlot :=
  { x with
    buf := fun k =>
      if InChunk job.bytes job.nsplit job.chunk k then
        if ok then env.file job.fd (job.baseOffset + k) else left k
      else x.buf k }

/-- `slot->chunks_done++`, with the result of the read. -/
def countDone (x : AsyncSlot) (job : ChunkJob) (ok : Bool) : AsyncSlot :=
  { x with
    chunksDone := x.chunksDone + 1
    anyErr := x.anyErr || !ok
    completed := (job.chunk, ok) :: x.completed }

/-- The end of a chunk: a canceled slot is given back when its claimed chunks are done, another
    one is finished when all of its chunks are. -/
def complete (x : AsyncSlot) (job : ChunkJob) (ok : Bool) : AsyncSlot :=
  let y := x.countDone job ok
  let allClaimedDone := y.chunksDone = y.chunksClaimed
  if y.canceled then
    if allClaimedDone then { y with state := .empty, canceled := false } else y
  else if job.nsplit ≤ y.chunksClaimed ∧ allClaimedDone then
    { y with state := if y.anyErr then .error else .ready }
  else y

/-- The slot after a submission has filled it. -/
def fill (env : AsyncEnv) (x : AsyncSlot) (q : Submission) : AsyncSlot :=
  { x with
    state := .queued
    layer := q.layer
    expert := q.expert
    fd := (env.layer q.layer).fd
    offset := q.expert * (env.layer q.layer).expertStride
    bytes := (env.layer q.layer).expertStride
    canceled := false
    speculative := q.speculative
    anyErr := false
    nsplit := activeIoSplit (env.layer q.layer).expertStride env.ioSplit
    chunksClaimed := 0
    chunksDone := 0
    claims := []
    completed := [] }

/-- `slot->state = DS4_FLASH_ASYNC_EMPTY; slot->canceled = false` -/
def discard (x : AsyncSlot) : AsyncSlot := { x with state := .empty, canceled := false }

/-- `slot->state = DS4_FLASH_ASYNC_CONSUMING; slot->canceled = false` -/
def take (x : AsyncSlot) : AsyncSlot := { x with state := .consuming, canceled := false }

end AsyncSlot

namespace AsyncReader

/-- `ds4_flash_prefill_async_init` -/
def init : AsyncReader where
  slots := fun _ => .fresh
  readers := fun _ => .ready
  xlayerPaused := false
  submissions := []
  consumer := .idle
  staged := []

variable (env : AsyncEnv)

/-- `pthread_cond_broadcast`. -/
def broadcast (s : AsyncReader) : AsyncReader :=
  { s with
    readers := fun r => match s.readers r with
      | .asleep      => .ready
      | .ready       => .ready
      | .reading job => .reading job
    consumer := match s.consumer with
      | .waiting layer expert => .woken layer expert
      | c                     => c }

/-- Replace a slot. -/
def setSlot (s : AsyncReader) (i : Nat) (x : AsyncSlot) : AsyncReader :=
  { s with slots := Function.update s.slots i x }

/-- The first slot that meets a test. -/
def firstSlot (s : AsyncReader) (p : AsyncSlot → Bool) : Option Nat :=
  (List.range env.nSlots).find? (fun i => p (s.slots i))

/-- `ds4_flash_prefill_async_find_locked` -/
def findLocked (s : AsyncReader) (layer expert : Nat) : Option Nat :=
  s.firstSlot env (fun x => x.owns layer expert)

/-! ### Reader threads -/

/-- The scan of `ds4_flash_prefill_async_thread`, up to its claim or its wait. -/
def scan (s : AsyncReader) (r : Nat) : AsyncReader :=
  match s.firstSlot env (fun x => x.claimable s.xlayerPaused) with
  | none   => { s with readers := Function.update s.readers r .asleep }
  | some i =>
    { s.setSlot i ((s.slots i).claim r) with
      readers := Function.update s.readers r (.reading ((s.slots i).claimJob i)) }

/-- The read of a chunk, outside the mutex. -/
def pread (s : AsyncReader) (r : Nat) (job : ChunkJob) (ok : Bool) (left : Nat → UInt8) :
    AsyncReader :=
  { s.setSlot job.slot ((s.slots job.slot).pread env job ok left) with
    readers := Function.update s.readers r (.reading { job with result := some ok }) }

/-- The end of a chunk in `ds4_flash_prefill_async_thread`. -/
def complete (s : AsyncReader) (r : Nat) (job : ChunkJob) (ok : Bool) : AsyncReader :=
  broadcast
    { s.setSlot job.slot ((s.slots job.slot).complete job ok) with
      readers := Function.update s.readers r .ready }

/-! ### Clients -/

/-- The end of `ds4_flash_prefill_async_submit`, in an empty slot. -/
def fill (s : AsyncReader) (i : Nat) (q : Submission) : AsyncReader :=
  broadcast (s.setSlot i ((s.slots i).fill env q))

/-- `slot->speculative = false`, with its broadcast. -/
def promote (s : AsyncReader) (i : Nat) : AsyncReader :=
  if (s.slots i).speculative then
    broadcast (s.setSlot i { s.slots i with speculative := false })
  else s

/-- `ds4_flash_prefill_async_submit` up to its wait, as its callers call it: for the record of an
    expert. -/
def submit (s : AsyncReader) (q : Submission) : AsyncReader :=
  let bytes := (env.layer q.layer).expertStride
  if bytes = 0 ∨ env.bufBytes < bytes then s
  else
    match s.findLocked env q.layer q.expert with
    | some i => if q.speculative then s else s.promote i
    | none =>
      match s.firstSlot env (fun x => x.state = .empty) with
      | some i => s.fill env i q
      | none   => { s with submissions := s.submissions ++ [q] }

/-- A waiting `ds4_flash_prefill_async_submit` looks for an empty slot again. -/
def resume (s : AsyncReader) (k : Nat) : AsyncReader :=
  match s.submissions[k]? with
  | none   => s
  | some q =>
    match s.firstSlot env (fun x => x.state = .empty) with
    | some i => { s.fill env i q with submissions := s.submissions.eraseIdx k }
    | none   => s

/-- The three cancel functions: cancel the slots that meet a test, and broadcast. -/
def cancelWhere (s : AsyncReader) (p : AsyncSlot → Bool) : AsyncReader :=
  broadcast { s with
    slots := fun i => if i < env.nSlots ∧ p (s.slots i) then (s.slots i).cancel else s.slots i }

/-- `ds4_flash_prefill_async_cancel_all` -/
def cancelAll (s : AsyncReader) : AsyncReader := s.cancelWhere env (fun _ => true)

/-- `ds4_flash_prefill_async_cancel_expert` -/
def cancelExpert (s : AsyncReader) (layer expert : Nat) : AsyncReader :=
  if env.nExpert ≤ expert then s else s.cancelWhere env (fun x => x.owns layer expert)

/-- The slots of a layer whose expert is not routed to. -/
def mispredicted (layer : Nat) (counts : Nat → Int) (x : AsyncSlot) : Bool :=
  x.state ≠ .empty && x.state ≠ .consuming && x.layer = layer &&
    !(decide (x.expert < env.nExpert) && decide (0 < counts x.expert))

/-- `ds4_flash_prefill_async_cancel_layer_mispredicted` -/
def cancelLayerMispredicted (s : AsyncReader) (layer : Nat) (counts : Nat → Int) : AsyncReader :=
  s.cancelWhere env (mispredicted env layer counts)

/-- `ds4_flash_prefill_async_set_paused` -/
def setPaused (s : AsyncReader) (paused : Bool) : AsyncReader :=
  let t := { s with xlayerPaused := paused }
  if paused then t else t.broadcast

/-! ### The consumer -/

/-- One turn of the loop of `metal_graph_flash_moe_stage_prefill_expert_async`. -/
def consumeTurn (s : AsyncReader) (layer expert : Nat) : AsyncReader :=
  match s.findLocked env layer expert with
  | none   => { s with consumer := .idle }
  | some i =>
    let t := s.promote i
    let x := t.slots i
    match x.state with
    | .ready =>
      { t.setSlot i x.take with consumer := .uploading i layer expert }
    | .error =>
      { (t.setSlot i x.discard).broadcast with consumer := .idle }
    | _ => { t with consumer := .waiting layer expert }

/-- `metal_graph_flash_moe_upload_prefill_expert`: the families of a buffer. -/
def uploadBanks (layer : Nat) (buf : Nat → UInt8) (f : Family) : List UInt8 :=
  (List.range ((env.layer layer).familyBytes f)).map
    (fun k => buf ((env.layer layer).familyOffset f + k))

/-- The upload, outside the mutex. -/
def upload (s : AsyncReader) (i layer expert : Nat) (ok : Bool) : AsyncReader :=
  let banks := if ok then some (uploadBanks env layer (s.slots i).buf) else none
  { s with consumer := .uploaded i layer expert banks }

/-- The end of `metal_graph_flash_moe_stage_prefill_expert_async`. -/
def release (s : AsyncReader) (i layer expert : Nat) (banks : Option (Family → List UInt8)) :
    AsyncReader :=
  let t := (s.setSlot i (s.slots i).discard).broadcast
  { t with
    consumer := .idle
    staged := match banks with
      | some b => s.staged ++ [{ layer := layer, expert := expert, banks := b }]
      | none   => s.staged }

end AsyncReader

/-! ### The machine -/

/-- What a thread does next, with the decisions of the environment. -/
inductive AsyncAction where
  | scan (r : Nat)
  | pread (r : Nat) (ok : Bool) (left : Nat → UInt8)
  | complete (r : Nat)
  | readerWakes (r : Nat)
  | submit (q : Submission)
  | resume (k : Nat)
  | setPaused (paused : Bool)
  | cancelAll
  | cancelExpert (layer expert : Nat)
  | cancelLayerMispredicted (layer : Nat) (counts : Nat → Int)
  | consume (layer expert : Nat)
  | consumerWakes
  | consumerTurn
  | upload (ok : Bool)
  | release

/-- The next state; an action that is not possible changes nothing. -/
def AsyncReader.step (env : AsyncEnv) (s : AsyncReader) : AsyncAction → AsyncReader
  | .scan r =>
    match s.readers r with
    | .ready => if r < env.nReaders then s.scan env r else s
    | _      => s
  | .pread r ok left =>
    match s.readers r with
    | .reading job => if job.result = none then s.pread env r job ok left else s
    | _            => s
  | .complete r =>
    match s.readers r with
    | .reading job =>
      match job.result with
      | some ok => s.complete r job ok
      | none    => s
    | _ => s
  | .readerWakes r =>
    match s.readers r with
    | .asleep => { s with readers := Function.update s.readers r .ready }
    | _       => s
  | .submit q => s.submit env q
  | .resume k => s.resume env k
  | .setPaused paused => s.setPaused paused
  | .cancelAll => s.cancelAll env
  | .cancelExpert layer expert => s.cancelExpert env layer expert
  | .cancelLayerMispredicted layer counts => s.cancelLayerMispredicted env layer counts
  | .consume layer expert =>
    match s.consumer with
    | .idle => s.consumeTurn env layer expert
    | _     => s
  | .consumerWakes =>
    match s.consumer with
    | .waiting layer expert => { s with consumer := .woken layer expert }
    | _                     => s
  | .consumerTurn =>
    match s.consumer with
    | .woken layer expert => s.consumeTurn env layer expert
    | _                   => s
  | .upload ok =>
    match s.consumer with
    | .uploading i layer expert => s.upload env i layer expert ok
    | _                         => s
  | .release =>
    match s.consumer with
    | .uploaded i layer expert banks => s.release i layer expert banks
    | _                              => s

/-- What one action can do: nothing, or the transition of its thread. -/
inductive AsyncReader.Moves (env : AsyncEnv) (s : AsyncReader) :
    AsyncAction → AsyncReader → Prop where
  | stays (a : AsyncAction) : Moves env s a s
  | scan {r : Nat} (hr : s.readers r = .ready) (hlt : r < env.nReaders) :
    Moves env s (.scan r) (s.scan env r)
  | pread {r : Nat} {j : ChunkJob} (hr : s.readers r = .reading j) (ok : Bool)
    (left : Nat → UInt8) : Moves env s (.pread r ok left) (s.pread env r j ok left)
  | complete {r : Nat} {j : ChunkJob} {ok : Bool} (hr : s.readers r = .reading j)
    (hres : j.result = some ok) : Moves env s (.complete r) (s.complete r j ok)
  | readerWakes {r : Nat} (hr : s.readers r = .asleep) :
    Moves env s (.readerWakes r) { s with readers := Function.update s.readers r .ready }
  | submit (q : Submission) : Moves env s (.submit q) (s.submit env q)
  | resume (k : Nat) : Moves env s (.resume k) (s.resume env k)
  | setPaused (paused : Bool) : Moves env s (.setPaused paused) (s.setPaused paused)
  | cancelAll : Moves env s .cancelAll (s.cancelAll env)
  | cancelExpert (layer expert : Nat) :
    Moves env s (.cancelExpert layer expert) (s.cancelExpert env layer expert)
  | cancelLayerMispredicted (layer : Nat) (counts : Nat → Int) :
    Moves env s (.cancelLayerMispredicted layer counts)
      (s.cancelLayerMispredicted env layer counts)
  | consume (layer expert : Nat) (hc : s.consumer = .idle) :
    Moves env s (.consume layer expert) (s.consumeTurn env layer expert)
  | consumerWakes {layer expert : Nat} (hc : s.consumer = .waiting layer expert) :
    Moves env s .consumerWakes { s with consumer := .woken layer expert }
  | consumerTurn {layer expert : Nat} (hc : s.consumer = .woken layer expert) :
    Moves env s .consumerTurn (s.consumeTurn env layer expert)
  | upload {i layer expert : Nat} (hc : s.consumer = .uploading i layer expert) (ok : Bool) :
    Moves env s (.upload ok) (s.upload env i layer expert ok)
  | release {i layer expert : Nat} {banks : Option (Family → List UInt8)}
    (hc : s.consumer = .uploaded i layer expert banks) :
    Moves env s .release (s.release i layer expert banks)

/-- **Inversion.** The case split over threads and their states, made once. -/
theorem AsyncReader.moves (env : AsyncEnv) (s : AsyncReader) (a : AsyncAction) :
    s.Moves env a (s.step env a) := by
  cases a with
  | scan r =>
    cases hr : s.readers r with
    | ready =>
      simp only [AsyncReader.step, hr]
      split
      · next hlt => exact .scan hr hlt
      · exact .stays _
    | asleep | reading =>
      simp only [AsyncReader.step, hr]
      exact .stays _
  | pread r ok left =>
    cases hr : s.readers r with
    | reading j =>
      simp only [AsyncReader.step, hr]
      split
      · exact .pread hr ok left
      · exact .stays _
    | ready | asleep =>
      simp only [AsyncReader.step, hr]
      exact .stays _
  | complete r =>
    cases hr : s.readers r with
    | reading j =>
      cases hres : j.result with
      | none =>
        simp only [AsyncReader.step, hr, hres]
        exact .stays _
      | some ok =>
        simp only [AsyncReader.step, hr, hres]
        exact .complete hr hres
    | ready | asleep =>
      simp only [AsyncReader.step, hr]
      exact .stays _
  | readerWakes r =>
    cases hr : s.readers r with
    | asleep =>
      simp only [AsyncReader.step, hr]
      exact .readerWakes hr
    | ready | reading =>
      simp only [AsyncReader.step, hr]
      exact .stays _
  | submit q => exact .submit q
  | resume k => exact .resume k
  | setPaused paused => exact .setPaused paused
  | cancelAll => exact .cancelAll
  | cancelExpert layer expert => exact .cancelExpert layer expert
  | cancelLayerMispredicted layer counts => exact .cancelLayerMispredicted layer counts
  | consume layer expert =>
    cases hc : s.consumer with
    | idle =>
      simp only [AsyncReader.step, hc]
      exact .consume layer expert hc
    | waiting | woken | uploading | uploaded =>
      simp only [AsyncReader.step, hc]
      exact .stays _
  | consumerWakes =>
    cases hc : s.consumer with
    | waiting layer expert =>
      simp only [AsyncReader.step, hc]
      exact .consumerWakes hc
    | idle | woken | uploading | uploaded =>
      simp only [AsyncReader.step, hc]
      exact .stays _
  | consumerTurn =>
    cases hc : s.consumer with
    | woken layer expert =>
      simp only [AsyncReader.step, hc]
      exact .consumerTurn hc
    | idle | waiting | uploading | uploaded =>
      simp only [AsyncReader.step, hc]
      exact .stays _
  | upload ok =>
    cases hc : s.consumer with
    | uploading i layer expert =>
      simp only [AsyncReader.step, hc]
      exact .upload hc ok
    | idle | waiting | woken | uploaded =>
      simp only [AsyncReader.step, hc]
      exact .stays _
  | release =>
    cases hc : s.consumer with
    | uploaded i layer expert banks =>
      simp only [AsyncReader.step, hc]
      exact .release hc
    | idle | waiting | woken | uploading =>
      simp only [AsyncReader.step, hc]
      exact .stays _

end DS4.FlashMoe
