import DS4.FlashMoe.AsyncBytes
import Mathlib.Algebra.Order.BigOperators.Group.Finset

namespace DS4.FlashMoe

/-!
# Flash-MoE — the split read of one expert

`flash_moe_pread_split` cuts a read into ranges and gives each to a thread of its own; the last one,
and one whose thread cannot start, it reads itself.  Every range is read by a loop over short reads.

* `IoSplitJob`, `SplitRead` — a range with its read loop, and the call.
* `SplitRead.iterate` — one iteration of `flash_moe_pread_full`; `SplitRead.step` — the call takes a
  step, or one of the loops does, in any order.
* `SplitInv` — what the loops have read so far, each in its own range and from its own offset.
* `pread_split_reads` — **the call** returns true exactly when every byte of the range was read from
  its own file offset.

`off_t` is 64 bits wide; offsets are sums of `uint64_t`, which wrap.
-/

/-! ### The call -/

/-- The arguments of the call, and the file. -/
structure SplitArgs where
  file : Nat → UInt8
  offset : UInt64
  bytes : UInt64
  want : Int

namespace SplitArgs

/-- The number of ranges. -/
def nsplit (a : SplitArgs) : Nat := activeIoSplit a.bytes.toNat a.want.toNat

/-- Where a range begins. -/
def rangeStart (a : SplitArgs) (c : Nat) : Nat := (ioSplitRange a.bytes.toNat a.nsplit c).1

/-- How long it is. -/
def rangeLen (a : SplitArgs) (c : Nat) : Nat := (ioSplitRange a.bytes.toNat a.nsplit c).2

end SplitArgs

/-- Has the read loop of a range begun, and has it returned? -/
inductive ReadPhase where
  | idle
  | running
  | finished
  deriving DecidableEq

/-- `ds4_flash_io_split_job`, with the locals of `flash_moe_pread_full`. -/
structure IoSplitJob where
  offset : Nat
  /-- the first byte of the buffer that it fills -/
  dst : Nat
  len : Nat
  ok : Bool
  done : Nat
  phase : ReadPhase

/-- A read that brought something: where in the buffer, from where in the file, how much. -/
structure ReadEvent where
  dst : Nat
  offset : Nat
  n : Nat

/-- Where the call is: reading the only range, handing out range `c`, reading it itself, joining the
    thread of range `c`, or back. -/
inductive SplitPc where
  | direct
  | handing (c : Nat)
  | reading (c : Nat)
  | joining (c : Nat) (ok : Bool)
  | returned (ok : Bool)
  deriving DecidableEq

/-- The state of the call; `reads` is its history. -/
structure SplitRead where
  pc : SplitPc
  jobs : Nat → IoSplitJob
  dst : Nat → UInt8
  reads : List ReadEvent

/-- What `pread` does. -/
inductive Pread where
  | eintr
  | failed
  /-- so many bytes, or all that were asked for; zero at the end of the file -/
  | got (n : Nat)

/-- The largest offset of a file. -/
def INT64_MAX : Nat := 0x7fffffffffffffff

/-- The most that one `pread` asks for. -/
def PREAD_MAX : Nat := 0x40000000

namespace SplitRead

variable (a : SplitArgs)

/-- The job of a range, when its loop begins. -/
def handOut (c : Nat) : IoSplitJob where
  offset := (a.offset.toNat + a.rangeStart c) % 0x10000000000000000
  dst := a.rangeStart c
  len := a.rangeLen c
  ok := false
  done := 0
  phase := .running

/-- No range has been handed out. -/
def idleJob : IoSplitJob := ⟨0, 0, 0, false, 0, .idle⟩

/-- The state at the call; a single range is read without a job of its own. -/
def start (dst : Nat → UInt8) : SplitRead where
  pc := if a.nsplit ≤ 1 then .direct else .handing 0
  jobs := if a.nsplit ≤ 1 then Function.update (fun _ => idleJob) 0 (handOut a 0) else fun _ => idleJob
  dst := dst
  reads := []

def setJob (s : SplitRead) (c : Nat) (j : IoSplitJob) : SplitRead :=
  { s with jobs := Function.update s.jobs c j }

/-- Bytes written to the buffer. -/
def fill (s : SplitRead) (pos n : Nat) (bytes : Nat → UInt8) : SplitRead :=
  { s with dst := fun x => if pos ≤ x ∧ x < pos + n then bytes x else s.dst x }

/-- One iteration of `flash_moe_pread_full` for range `c`.  A read that is interrupted or fails
    leaves any bytes where it would have written. -/
def iterate (s : SplitRead) (c : Nat) (r : Pread) (left : Nat → UInt8) : SplitRead :=
  let j := s.jobs c
  if j.phase ≠ .running then s
  else if j.len ≤ j.done then s.setJob c { j with ok := true, phase := .finished }
  else if INT64_MAX < j.offset ∨ INT64_MAX - j.offset < j.done then
    s.setJob c { j with ok := false, phase := .finished }
  else
    let want := min (j.len - j.done) PREAD_MAX
    let pos := j.dst + j.done
    match r with
    | .eintr  => s.fill pos want left
    | .failed => (s.setJob c { j with ok := false, phase := .finished }).fill pos want left
    | .got n  =>
      let n := min n want
      if n = 0 then s.setJob c { j with ok := false, phase := .finished }
      else
        { (s.setJob c { j with done := j.done + n }).fill pos n fun x =>
            a.file (j.offset + j.done + (x - pos)) with
          reads := s.reads ++ [⟨pos, j.offset + j.done, n⟩] }

/-- One step of `flash_moe_pread_split` outside its read loops; `created` says whether
    `pthread_create` succeeds.  A join waits for the loop; one that the call ran itself has
    returned. -/
def advance (s : SplitRead) (created : Bool) : SplitRead :=
  match s.pc with
  | .direct => if (s.jobs 0).phase = .finished then { s with pc := .returned (s.jobs 0).ok } else s
  | .handing c =>
    if c < a.nsplit then
      { s.setJob c (handOut a c) with
        pc := if c = a.nsplit - 1 ∨ created = false then .reading c else .handing (c + 1) }
    else { s with pc := .joining 0 true }
  | .reading c => if (s.jobs c).phase = .finished then { s with pc := .handing (c + 1) } else s
  | .joining c ok =>
    if c < a.nsplit then
      if (s.jobs c).phase = .finished then { s with pc := .joining (c + 1) (ok && (s.jobs c).ok) }
      else s
    else { s with pc := .returned ok }
  | .returned _ => s

end SplitRead

/-- What happens next: the call goes on, or the read loop of a range does. -/
inductive SplitAction where
  | call (created : Bool)
  | read (c : Nat) (r : Pread) (left : Nat → UInt8)

namespace SplitRead

def step (a : SplitArgs) (s : SplitRead) : SplitAction → SplitRead
  | .call created => s.advance a created
  | .read c r left => s.iterate a c r left

/-- A run of the call. -/
def run (a : SplitArgs) (dst : Nat → UInt8) (acts : List SplitAction) : SplitRead :=
  acts.foldl (step a) (start a dst)

/-- Byte `x` of the range was read from its own file offset. -/
def ReadOwn (a : SplitArgs) (s : SplitRead) (x : Nat) : Prop :=
  ∃ e ∈ s.reads, e.dst ≤ x ∧ x < e.dst + e.n ∧ e.offset + (x - e.dst) = a.offset.toNat + x

end SplitRead

/-! ### The ranges -/

namespace SplitArgs

variable {a : SplitArgs}

theorem nsplit_pos (a : SplitArgs) : 0 < a.nsplit := activeIoSplit_pos _ _

/-- There are no more ranges than pages. -/
theorem nsplit_le_pages (hone : ¬ a.nsplit ≤ 1) : a.nsplit ≤ a.bytes.toNat / IO_PAGE_BYTES := by
  unfold nsplit activeIoSplit at hone ⊢
  split at hone
  · exact absurd (Nat.le_refl 1) hone
  · rename_i hsplit
    rw [if_neg hsplit]
    omega

theorem rangeStart_zero (a : SplitArgs) : a.rangeStart 0 = 0 := by
  unfold rangeStart ioSplitRange
  split <;> simp

/-- A range ends where the next one begins, and the last one where the read does. -/
theorem rangeStart_add_rangeLen {c : Nat} (hc : c < a.nsplit) :
    a.rangeStart c + a.rangeLen c = if c + 1 = a.nsplit then a.bytes.toNat else a.rangeStart (c + 1) := by
  unfold rangeStart rangeLen ioSplitRange
  by_cases hone : a.nsplit ≤ 1
  · rw [if_pos hone, if_pos hone, if_pos (by omega)]
    simp
  rw [if_neg hone, if_neg hone]
  dsimp only
  by_cases hlast : c + 1 = a.nsplit
  · rw [if_pos hlast, if_pos (by omega)]
    refine Nat.add_sub_cancel' ?_
    -- whole pages, no more of them than there are
    have hpages : c * (a.bytes.toNat / IO_PAGE_BYTES / a.nsplit) ≤ a.bytes.toNat / IO_PAGE_BYTES :=
      Nat.le_trans (Nat.mul_le_mul_right _ (Nat.le_of_lt hc)) (Nat.mul_div_le _ _)
    exact Nat.le_trans (Nat.mul_le_mul_right _ hpages) (Nat.div_mul_le_self _ _)
  · rw [if_neg hlast, if_neg (by omega), ← Nat.add_mul, Nat.succ_mul]

theorem range_le {c : Nat} (hc : c < a.nsplit) : a.rangeStart c + a.rangeLen c ≤ a.bytes.toNat := by
  -- down from the last range
  obtain ⟨d, hd⟩ : ∃ d, c + 1 + d = a.nsplit := ⟨a.nsplit - (c + 1), by omega⟩
  induction d generalizing c with
  | zero =>
    rw [rangeStart_add_rangeLen hc, if_pos hd]
  | succ d ih =>
    rw [rangeStart_add_rangeLen hc, if_neg (by omega)]
    exact Nat.le_trans (Nat.le_add_right _ _) (ih (c := c + 1) (by omega) (by omega))

/-- **The ranges** are disjoint. -/
theorem range_disjoint {c c' x : Nat} (hc : c < a.nsplit) (hc' : c' < a.nsplit)
    (h : a.rangeStart c ≤ x ∧ x < a.rangeStart c + a.rangeLen c)
    (h' : a.rangeStart c' ≤ x ∧ x < a.rangeStart c' + a.rangeLen c') : c = c' :=
  inChunk_disjoint hc hc' h h'

/-- **The ranges** make up the read. -/
theorem exists_range {x : Nat} (hx : x < a.bytes.toNat) :
    ∃ c < a.nsplit, a.rangeStart c ≤ x ∧ x < a.rangeStart c + a.rangeLen c :=
  exists_inChunk a.nsplit_pos hx

end SplitArgs

/-! ### One iteration -/

namespace SplitRead

variable {a : SplitArgs} {s s' : SplitRead} {c : Nat}

/-- What one iteration of the loop of range `c` can do. -/
structure Iterated (a : SplitArgs) (s s' : SplitRead) (c : Nat) : Prop where
  running : (s.jobs c).phase = .running
  pc : s'.pc = s.pc
  others : ∀ c', c' ≠ c → s'.jobs c' = s.jobs c'
  offset : (s'.jobs c).offset = (s.jobs c).offset
  start : (s'.jobs c).dst = (s.jobs c).dst
  len : (s'.jobs c).len = (s.jobs c).len
  begun : (s'.jobs c).phase ≠ .idle
  done_le : (s.jobs c).done ≤ (s.jobs c).len → (s'.jobs c).done ≤ (s.jobs c).len
  result : (s'.jobs c).phase = .finished →
    ((s'.jobs c).ok = true ↔ (s.jobs c).len ≤ (s'.jobs c).done)
  /-- it writes behind what was read, in its own range -/
  frame : ∀ x, ¬ ((s.jobs c).dst + (s.jobs c).done ≤ x ∧ x < (s.jobs c).dst + (s.jobs c).len) →
    s'.dst x = s.dst x
  /-- nothing was read, or so many bytes from where the loop had come to -/
  read : (s'.reads = s.reads ∧ (s'.jobs c).done = (s.jobs c).done) ∨
    ∃ n, s'.reads = s.reads ++ [⟨(s.jobs c).dst + (s.jobs c).done, (s.jobs c).offset + (s.jobs c).done, n⟩] ∧
      (s'.jobs c).done = (s.jobs c).done + n ∧
      (s.jobs c).offset + (s'.jobs c).done ≤ INT64_MAX + PREAD_MAX ∧
      ∀ k < n, s'.dst ((s.jobs c).dst + (s.jobs c).done + k)
        = a.file ((s.jobs c).offset + (s.jobs c).done + k)

theorem iterate_cases (a : SplitArgs) (s : SplitRead) (c : Nat) (r : Pread) (left : Nat → UInt8) :
    s.iterate a c r left = s ∨ Iterated a s (s.iterate a c r left) c := by
  unfold iterate
  dsimp only
  generalize hj : s.jobs c = j
  by_cases hphase : j.phase ≠ .running
  · exact Or.inl (if_pos hphase)
  rw [if_neg hphase]
  have hrun : j.phase = .running := not_not.mp hphase
  right
  by_cases hall : j.len ≤ j.done
  · rw [if_pos hall]
    refine ⟨hj ▸ hrun, rfl, ?_, ?_, ?_, ?_, ?_, ?_, ?_, fun _ _ => rfl, Or.inl ⟨rfl, ?_⟩⟩ <;>
      simp_all [setJob]
  rw [if_neg hall]
  -- a loop that gives up has not read all of its range
  have hgive : ∀ d, (∀ x, ¬ (j.dst + j.done ≤ x ∧ x < j.dst + j.len) → d x = s.dst x) →
      Iterated a s { s.setJob c { j with ok := false, phase := .finished } with dst := d } c := by
    intro d hd
    refine ⟨hj ▸ hrun, rfl, ?_, ?_, ?_, ?_, ?_, ?_, ?_, ?_, Or.inl ⟨rfl, ?_⟩⟩ <;> simp_all [setJob]
  have hwant : min (j.len - j.done) PREAD_MAX ≤ j.len - j.done := Nat.min_le_left _ _
  by_cases hfar : INT64_MAX < j.offset ∨ INT64_MAX - j.offset < j.done
  · rw [if_pos hfar]
    exact hgive s.dst fun _ _ => rfl
  rw [if_neg hfar]
  cases r with
  | eintr =>
    refine ⟨hj ▸ hrun, rfl, fun _ _ => rfl, rfl, rfl, rfl, ?_, ?_, ?_, ?_, Or.inl ⟨rfl, rfl⟩⟩
    · show (s.jobs c).phase ≠ .idle
      rw [hj, hrun]
      decide
    · exact fun h => h
    · intro hfin
      have : (s.jobs c).phase = .finished := hfin
      rw [hj, hrun] at this
      cases this
    · intro x hx
      rw [hj] at hx
      exact if_neg fun hin => hx ⟨hin.1, by omega⟩
  | failed =>
    refine hgive _ fun x hx => ?_
    exact if_neg fun hin => hx ⟨hin.1, by omega⟩
  | got n =>
    dsimp only
    have hle : min n (min (j.len - j.done) PREAD_MAX) ≤ min (j.len - j.done) PREAD_MAX :=
      Nat.min_le_right _ _
    generalize min n (min (j.len - j.done) PREAD_MAX) = m at hle ⊢
    by_cases hzero : m = 0
    · rw [if_pos hzero]
      exact hgive s.dst fun _ _ => rfl
    · rw [if_neg hzero]
      have hmax : m ≤ PREAD_MAX := Nat.le_trans hle (Nat.min_le_right _ _)
      refine ⟨hj ▸ hrun, rfl, ?_, ?_, ?_, ?_, ?_, ?_, ?_, ?_, Or.inr ⟨m, ?_, ?_, ?_, ?_⟩⟩
      · intro c' hc'
        simp [setJob, fill, hc']
      · simp [setJob, fill, hj]
      · simp [setJob, fill, hj]
      · simp [setJob, fill, hj]
      · simp [setJob, fill, hrun]
      · intro _
        simp only [setJob, fill, Function.update_self, hj]
        omega
      · simp [setJob, fill, hrun]
      · intro x hx
        rw [hj] at hx
        exact if_neg fun hin => hx ⟨hin.1, by omega⟩
      · rw [hj]
      · simp [setJob, fill, hj]
      · simp only [setJob, fill, Function.update_self, hj]
        omega
      · intro k hk
        simp only [setJob, fill, hj]
        rw [if_pos ⟨by omega, by omega⟩]
        congr 1
        omega

/-! ### The invariant -/

/-- How many ranges have been handed out. -/
def handed (a : SplitArgs) : SplitPc → Nat
  | .direct      => 1
  | .handing c   => c
  | .reading c   => c + 1
  | .joining _ _ => a.nsplit
  | .returned _  => a.nsplit

/-- The loop of range `c` has read the first `done` bytes of its range, from where they are in the
    file. -/
structure JobInv (a : SplitArgs) (s : SplitRead) (c : Nat) : Prop where
  offset : (s.jobs c).offset = (a.offset.toNat + a.rangeStart c) % 0x10000000000000000
  start : (s.jobs c).dst = a.rangeStart c
  len : (s.jobs c).len = a.rangeLen c
  begun : (s.jobs c).phase ≠ .idle
  done_le : (s.jobs c).done ≤ (s.jobs c).len
  near : (s.jobs c).done = 0 ∨ (s.jobs c).offset + (s.jobs c).done ≤ INT64_MAX + PREAD_MAX
  result : (s.jobs c).phase = .finished → ((s.jobs c).ok = true ↔ (s.jobs c).done = (s.jobs c).len)
  bytes : ∀ k < (s.jobs c).done, s.dst ((s.jobs c).dst + k) = a.file ((s.jobs c).offset + k)
  read : ∀ k < (s.jobs c).done, ∃ e ∈ s.reads, e.dst ≤ (s.jobs c).dst + k ∧
    (s.jobs c).dst + k < e.dst + e.n ∧
    e.offset + ((s.jobs c).dst + k - e.dst) = (s.jobs c).offset + k

/-- The first `c` ranges have been joined, with result `ok`. -/
def Joined (s : SplitRead) (c : Nat) (ok : Bool) : Prop :=
  (∀ c' < c, (s.jobs c').phase = .finished) ∧ (ok = true ↔ ∀ c' < c, (s.jobs c').ok = true)

/-- What the call knows where it is. -/
def CallInv (a : SplitArgs) (s : SplitRead) : Prop :=
  match s.pc with
  | .direct        => a.nsplit = 1
  | .joining c ok  => c ≤ a.nsplit ∧ s.Joined c ok
  | .returned ok   => s.Joined a.nsplit ok
  | _              => True

/-- The invariant of the call; `dst` is the buffer before it. -/
structure SplitInv (a : SplitArgs) (dst : Nat → UInt8) (s : SplitRead) : Prop where
  handed_le : handed a s.pc ≤ a.nsplit
  job : ∀ c < handed a s.pc, JobInv a s c
  idle : ∀ c, handed a s.pc ≤ c → (s.jobs c).phase = .idle
  /-- every read is one of some range -/
  mine : ∀ e ∈ s.reads, ∃ c < handed a s.pc, (s.jobs c).dst ≤ e.dst ∧
    e.dst + e.n ≤ (s.jobs c).dst + (s.jobs c).done
  frame : ∀ x, a.bytes.toNat ≤ x → s.dst x = dst x
  call : CallInv a s

variable {dst : Nat → UInt8}

/-- A finished loop is not touched again, so what has been joined stays so. -/
theorem Joined.congr {m : Nat} {ok : Bool} (h : s.Joined m ok)
    (heq : ∀ c' < m, (s.jobs c').phase = .finished → s'.jobs c' = s.jobs c') : s'.Joined m ok := by
  have hsame : ∀ c' < m, s'.jobs c' = s.jobs c' := fun c' hc' => heq c' hc' (h.1 c' hc')
  refine ⟨fun c' hc' => ?_, h.2.trans ⟨fun hall c' hc' => ?_, fun hall c' hc' => ?_⟩⟩
  · rw [hsame c' hc']
    exact h.1 c' hc'
  · rw [hsame c' hc']
    exact hall c' hc'
  · rw [← hsame c' hc']
    exact hall c' hc'

/-- **One iteration** of a loop keeps the invariant: it writes and reads in its own range. -/
theorem SplitInv.iterated (h : SplitInv a dst s) (hit : Iterated a s s' c) : SplitInv a dst s' := by
  have hc : c < handed a s.pc := by
    by_contra hge
    have := hit.running
    rw [h.idle c (Nat.le_of_not_lt hge)] at this
    cases this
  have hcn : c < a.nsplit := Nat.lt_of_lt_of_le hc h.handed_le
  have hj := h.job c hc
  -- where the iteration may have written
  have hin : ∀ x, (s.jobs c).dst + (s.jobs c).done ≤ x ∧ x < (s.jobs c).dst + (s.jobs c).len →
      a.rangeStart c ≤ x ∧ x < a.rangeStart c + a.rangeLen c := by
    intro x hx
    rw [hj.start, hj.len] at hx
    exact ⟨by omega, hx.2⟩
  have hreads : ∀ e ∈ s.reads, e ∈ s'.reads := by
    intro e he
    rcases hit.read with ⟨heq, -⟩ | ⟨n, heq, -⟩
    · rwa [heq]
    · rw [heq]
      exact List.mem_append_left _ he
  have hgrow : (s.jobs c).done ≤ (s'.jobs c).done := by
    rcases hit.read with ⟨-, heq⟩ | ⟨n, -, heq, -⟩ <;> omega
  refine ⟨by rw [hit.pc]; exact h.handed_le, ?_, ?_, ?_, ?_, ?_⟩
  · intro c' hc'
    rw [hit.pc] at hc'
    have hj' := h.job c' hc'
    by_cases hcc : c' = c
    · subst hcc
      refine ⟨by rw [hit.offset, hj.offset], by rw [hit.start, hj.start], by rw [hit.len, hj.len],
        hit.begun, ?_, ?_, ?_, ?_, ?_⟩
      · rw [hit.len]
        exact hit.done_le hj.done_le
      · rw [hit.offset]
        rcases hit.read with ⟨-, heq⟩ | ⟨n, -, -, hnear, -⟩
        · rw [heq]
          exact hj.near
        · exact Or.inr hnear
      · intro hfin
        rw [hit.result hfin, hit.len]
        have := hit.done_le hj.done_le
        omega
      · intro k hk
        rw [hit.start, hit.offset]
        by_cases hold : k < (s'.jobs c').done ∧ ¬ k < (s.jobs c').done
        · -- a byte of this read
          rcases hit.read with ⟨-, heq⟩ | ⟨n, -, heq, -, hfill⟩
          · omega
          · have := hfill (k - (s.jobs c').done) (by omega)
            rwa [show (s.jobs c').dst + (s.jobs c').done + (k - (s.jobs c').done)
                = (s.jobs c').dst + k by omega,
              show (s.jobs c').offset + (s.jobs c').done + (k - (s.jobs c').done)
                = (s.jobs c').offset + k by omega] at this
        · rw [hit.frame _ (by omega)]
          exact hj.bytes k (by omega)
      · intro k hk
        rw [hit.start, hit.offset]
        by_cases hold : k < (s.jobs c').done
        · obtain ⟨e, he, hcover⟩ := hj.read k hold
          exact ⟨e, hreads e he, hcover⟩
        · rcases hit.read with ⟨-, heq⟩ | ⟨n, hlog, heq, -⟩
          · omega
          · refine ⟨_, by rw [hlog]; exact List.mem_append_right _ (List.mem_singleton.mpr rfl), ?_⟩
            dsimp only
            omega
    · -- another range: nothing of it has changed
      have hsame := hit.others c' hcc
      refine ⟨by rw [hsame, hj'.offset], by rw [hsame, hj'.start], by rw [hsame, hj'.len],
        by rw [hsame]; exact hj'.begun, by rw [hsame]; exact hj'.done_le,
        by rw [hsame]; exact hj'.near, by rw [hsame]; exact hj'.result, ?_, ?_⟩
      · intro k hk
        rw [hsame] at hk ⊢
        rw [hit.frame _ fun hwrite => ?_]
        · exact hj'.bytes k hk
        · have hmine : a.rangeStart c' ≤ (s.jobs c').dst + k ∧
              (s.jobs c').dst + k < a.rangeStart c' + a.rangeLen c' := by
            have := hj'.done_le
            rw [hj'.start, ← hj'.len]
            omega
          exact hcc (SplitArgs.range_disjoint (Nat.lt_of_lt_of_le hc' h.handed_le) hcn hmine
            (hin _ hwrite))
      · intro k hk
        rw [hsame] at hk ⊢
        obtain ⟨e, he, hcover⟩ := hj'.read k hk
        exact ⟨e, hreads e he, hcover⟩
  · intro c' hc'
    rw [hit.pc] at hc'
    rw [hit.others c' (by omega)]
    exact h.idle c' hc'
  · intro e he
    rw [hit.pc]
    have hold : ∀ e ∈ s.reads, ∃ c' < handed a s.pc, (s'.jobs c').dst ≤ e.dst ∧
        e.dst + e.n ≤ (s'.jobs c').dst + (s'.jobs c').done := by
      intro e he
      obtain ⟨c', hc', hlo, hhi⟩ := h.mine e he
      by_cases hcc : c' = c
      · subst hcc
        exact ⟨c', hc', by rw [hit.start]; exact hlo, by rw [hit.start]; omega⟩
      · exact ⟨c', hc', by rw [hit.others c' hcc]; exact hlo, by rw [hit.others c' hcc]; exact hhi⟩
    rcases hit.read with ⟨heq, -⟩ | ⟨n, heq, hdone, -⟩
    · exact hold e (heq ▸ he)
    · rw [heq, List.mem_append, List.mem_singleton] at he
      rcases he with he | rfl
      · exact hold e he
      · refine ⟨c, hc, ?_, ?_⟩
        · rw [hit.start]
          exact Nat.le_add_right _ _
        · rw [hit.start, hdone]
          dsimp only
          omega
  · intro x hx
    rw [hit.frame x fun hwrite => ?_]
    · exact h.frame x hx
    · have := (hin x hwrite).2
      have := SplitArgs.range_le hcn
      omega
  · have hcall := h.call
    have hkeep : ∀ c', (s.jobs c').phase = .finished → s'.jobs c' = s.jobs c' := by
      intro c' hfin
      refine hit.others c' ?_
      rintro rfl
      rw [hit.running] at hfin
      cases hfin
    unfold CallInv at hcall ⊢
    rw [hit.pc]
    generalize s.pc = pc at hcall ⊢
    cases pc with
    | joining m ok => exact ⟨hcall.1, hcall.2.congr fun c' _ => hkeep c'⟩
    | returned ok => exact Joined.congr hcall fun c' _ => hkeep c'
    | direct => exact hcall
    | handing m => exact hcall
    | reading m => exact hcall

/-- A step of the call that touches neither a loop nor the buffer. -/
theorem SplitInv.move (h : SplitInv a dst s) {pc : SplitPc} (hpc : handed a pc = handed a s.pc)
    (hcall : CallInv a { s with pc := pc }) : SplitInv a dst { s with pc := pc } where
  handed_le := hpc ▸ h.handed_le
  job := by
    intro c hc
    obtain ⟨h₁, h₂, h₃, h₄, h₅, h₆, h₇, h₈, h₉⟩ := h.job c (hpc ▸ hc)
    exact ⟨h₁, h₂, h₃, h₄, h₅, h₆, h₇, h₈, h₉⟩
  idle := fun c hc => h.idle c (hpc ▸ hc)
  mine := fun e he => by
    obtain ⟨c, hc, hin⟩ := h.mine e he
    exact ⟨c, hpc.symm ▸ hc, hin⟩
  frame := h.frame
  call := hcall

/-- A range that has just been handed out. -/
theorem jobInv_handOut (hjob : s.jobs c = handOut a c) : JobInv a s c where
  offset := by rw [hjob]; rfl
  start := by rw [hjob]; rfl
  len := by rw [hjob]; rfl
  begun := by rw [hjob]; exact ReadPhase.noConfusion
  done_le := by rw [hjob]; exact Nat.zero_le _
  near := by rw [hjob]; exact Or.inl rfl
  result := by rw [hjob]; exact fun hfin => nomatch hfin
  bytes := by rw [hjob]; exact fun k hk => absurd hk (Nat.not_lt_zero k)
  read := by rw [hjob]; exact fun k hk => absurd hk (Nat.not_lt_zero k)

/-- **The next range** is handed out. -/
theorem SplitInv.handOut (h : SplitInv a dst s) (hpc : s.pc = .handing c) (hc : c < a.nsplit)
    {pc : SplitPc} (hto : pc = .reading c ∨ pc = .handing (c + 1)) :
    SplitInv a dst { s.setJob c (handOut a c) with pc := pc } := by
  have hnext : handed a pc = c + 1 := by
    rcases hto with rfl | rfl <;> rfl
  have hold : handed a s.pc = c := by
    rw [hpc]
    rfl
  have hother : ∀ c', c' ≠ c → ({ s.setJob c (SplitRead.handOut a c) with pc := pc } : SplitRead).jobs c'
      = s.jobs c' := by
    intro c' hne
    simp [setJob, hne]
  refine ⟨by rw [hnext]; exact hc, ?_, ?_, ?_, h.frame, ?_⟩
  · intro c' hc'
    by_cases hcc : c' = c
    · subst hcc
      exact jobInv_handOut (by simp [setJob])
    · obtain ⟨h₁, h₂, h₃, h₄, h₅, h₆, h₇, h₈, h₉⟩ := h.job c' (by rw [hold]; rw [hnext] at hc'; omega)
      constructor <;> rw [hother c' hcc] <;> assumption
  · intro c' hc'
    rw [hnext] at hc'
    rw [hother c' (by omega)]
    exact h.idle c' (by rw [hold]; omega)
  · intro e he
    obtain ⟨c', hc', hin⟩ := h.mine e he
    rw [hold] at hc'
    refine ⟨c', by rw [hnext]; omega, ?_⟩
    rwa [hother c' (by omega)]
  · rcases hto with rfl | rfl <;> exact trivial

/-- **One step of the call** keeps the invariant. -/
theorem SplitInv.advance (h : SplitInv a dst s) (created : Bool) :
    SplitInv a dst (s.advance a created) := by
  have hcall := h.call
  unfold CallInv at hcall
  unfold SplitRead.advance
  generalize hpc : s.pc = pc at hcall
  cases pc with
  | direct =>
    dsimp only at hcall ⊢
    split
    · rename_i hfin
      refine h.move (by rw [hpc]; exact hcall) ?_
      show Joined _ a.nsplit _
      rw [hcall]
      refine ⟨fun c' hc' => ?_, fun hok c' hc' => ?_, fun hall => hall 0 Nat.one_pos⟩
      · rw [Nat.lt_one_iff.mp hc']
        exact hfin
      · rw [Nat.lt_one_iff.mp hc']
        exact hok
    · exact h
  | handing c =>
    dsimp only
    split
    · rename_i hc
      refine h.handOut hpc hc ?_
      split
      · exact Or.inl rfl
      · exact Or.inr rfl
    · -- every range has been handed out
      rename_i hc
      have hle := h.handed_le
      rw [hpc] at hle
      have hall : c = a.nsplit := Nat.le_antisymm hle (Nat.le_of_not_lt hc)
      refine h.move (by rw [hpc]; exact hall.symm) ⟨Nat.zero_le _, ?_⟩
      exact ⟨fun c' hc' => absurd hc' (Nat.not_lt_zero c'),
        fun _ c' hc' => absurd hc' (Nat.not_lt_zero c'), fun _ => rfl⟩
  | reading c =>
    dsimp only
    split
    · exact h.move (by rw [hpc]; rfl) trivial
    · exact h
  | joining c ok =>
    dsimp only at hcall ⊢
    split
    · rename_i hc
      split
      · rename_i hfin
        obtain ⟨hdone, hok⟩ := hcall.2
        refine h.move (by rw [hpc]; rfl) ⟨hc, ?_, ?_⟩
        · intro c' hc'
          rcases Nat.lt_succ_iff_lt_or_eq.mp hc' with hlt | rfl
          · exact hdone c' hlt
          · exact hfin
        · show (ok && (s.jobs c).ok) = true ↔ ∀ c' < c + 1, (s.jobs c').ok = true
          rw [Bool.and_eq_true, hok]
          constructor
          · rintro ⟨hbefore, hthis⟩ c' hc'
            rcases Nat.lt_succ_iff_lt_or_eq.mp hc' with hlt | rfl
            · exact hbefore c' hlt
            · exact hthis
          · intro hall
            exact ⟨fun c' hc' => hall c' (Nat.lt_succ_of_lt hc'), hall c (Nat.lt_succ_self c)⟩
      · exact h
    · rename_i hc
      have hall : c = a.nsplit := Nat.le_antisymm hcall.1 (Nat.le_of_not_lt hc)
      refine h.move (by rw [hpc]; rfl) ?_
      have hjoined := hcall.2
      rw [hall] at hjoined
      exact hjoined
  | returned ok => exact h

/-- The invariant holds at the call. -/
theorem splitInv_start (a : SplitArgs) (dst : Nat → UInt8) : SplitInv a dst (start a dst) := by
  unfold start
  by_cases hone : a.nsplit ≤ 1
  · have hsplit : a.nsplit = 1 := Nat.le_antisymm hone a.nsplit_pos
    simp only [if_pos hone]
    refine ⟨a.nsplit_pos, ?_, ?_, nofun, fun _ _ => rfl, hsplit⟩
    · intro c hc
      obtain rfl := Nat.lt_one_iff.mp hc
      exact jobInv_handOut (by simp)
    · intro c hc
      have hne : c ≠ 0 := Nat.ne_of_gt hc
      simp [hne, idleJob]
  · simp only [if_neg hone]
    exact ⟨Nat.zero_le _, fun c hc => absurd hc (Nat.not_lt_zero c), fun _ _ => rfl, nofun,
      fun _ _ => rfl, trivial⟩

/-- **Every state** of a run. -/
theorem splitInv_run (a : SplitArgs) (dst : Nat → UInt8) (acts : List SplitAction) :
    SplitInv a dst (run a dst acts) := by
  unfold run
  generalize hs : start a dst = s
  have h : SplitInv a dst s := hs ▸ splitInv_start a dst
  clear hs
  induction acts generalizing s with
  | nil => exact h
  | cons act acts ih =>
    refine ih _ ?_
    cases act with
    | call created => exact h.advance created
    | read c r left =>
      rcases iterate_cases a s c r left with heq | hit
      · show SplitInv a dst (s.iterate a c r left)
        rwa [heq]
      · exact h.iterated hit

/-! ### The result -/

/-- A byte of the read lies in the range of a job. -/
def InRange (j : IoSplitJob) (x : Nat) : Prop := j.dst ≤ x ∧ x < j.dst + j.len

theorem SplitInv.inRange (h : SplitInv a dst s) (hall : handed a s.pc = a.nsplit) (hc : c < a.nsplit)
    {x : Nat} : InRange (s.jobs c) x ↔ a.rangeStart c ≤ x ∧ x < a.rangeStart c + a.rangeLen c := by
  have hj := h.job c (hall.symm ▸ hc)
  unfold InRange
  rw [hj.start, hj.len]

/-- When every range was read, no offset has wrapped: a loop stops before the largest offset of a
    file, so the next range begins not far behind it. -/
theorem SplitInv.offset_eq (h : SplitInv a dst s) (hall : handed a s.pc = a.nsplit)
    (hdone : ∀ c < a.nsplit, (s.jobs c).done = (s.jobs c).len) (hc : c < a.nsplit) :
    (s.jobs c).offset = a.offset.toNat + a.rangeStart c := by
  have hlt : a.offset.toNat + a.rangeStart c < 0x10000000000000000 := by
    induction c with
    | zero =>
      rw [a.rangeStart_zero]
      exact a.offset.toNat_lt
    | succ c ih =>
      have hc' : c < a.nsplit := Nat.lt_of_succ_lt hc
      have hj := h.job c (hall.symm ▸ hc')
      have hend := SplitArgs.rangeStart_add_rangeLen hc'
      rw [if_neg (Nat.ne_of_lt hc)] at hend
      have hexact := hj.offset
      rw [Nat.mod_eq_of_lt (ih hc')] at hexact
      have hlen : (s.jobs c).done = a.rangeLen c := (hdone c hc').trans hj.len
      have hbefore := ih hc'
      rcases hj.near with hzero | hnear
      · omega
      · unfold INT64_MAX PREAD_MAX at hnear
        omega
  rw [(h.job c (hall.symm ▸ hc)).offset, Nat.mod_eq_of_lt hlt]

/-- A byte that a loop has not come to was not read. -/
theorem SplitInv.not_readOwn (h : SplitInv a dst s) (hall : handed a s.pc = a.nsplit)
    (hc : c < a.nsplit) {x : Nat} (hx : InRange (s.jobs c) x)
    (hbehind : (s.jobs c).dst + (s.jobs c).done ≤ x) : ¬ ReadOwn a s x := by
  rintro ⟨e, he, hlo, hhi, -⟩
  obtain ⟨c', hc', hstart, hend⟩ := h.mine e he
  rw [hall] at hc'
  have hj' := h.job c' (hall.symm ▸ hc')
  have hin : InRange (s.jobs c') x := by
    refine ⟨Nat.le_trans hstart hlo, ?_⟩
    have := hj'.done_le
    omega
  obtain rfl : c = c' := SplitArgs.range_disjoint hc hc' ((h.inRange hall hc).mp hx)
    ((h.inRange hall hc').mp hin)
  omega

/-! ### The call returns -/

/-- How many steps the call itself has before it. -/
def callRank (a : SplitArgs) : SplitPc → Nat
  | .direct      => 1
  | .handing c   => 2 * (a.nsplit - c) + a.nsplit + 2
  | .reading c   => 2 * (a.nsplit - c) + a.nsplit + 1
  | .joining c _ => a.nsplit - c + 1
  | .returned _  => 0

/-- How many iterations a loop has before it, at most. -/
def jobRank (a : SplitArgs) (s : SplitRead) (c : Nat) : Nat :=
  match (s.jobs c).phase with
  | .idle     => a.rangeLen c + 1
  | .running  => a.rangeLen c - (s.jobs c).done + 1
  | .finished => 0

/-- The steps before the return, reads that are interrupted apart. -/
def rank (a : SplitArgs) (s : SplitRead) : Nat :=
  callRank a s.pc + ∑ c ∈ Finset.range a.nsplit, jobRank a s c

/-- A read that is not interrupted ends the loop or brings it on. -/
theorem iterate_onward (hrun : (s.jobs c).phase = .running) {r : Pread} (hr : r ≠ .eintr)
    (left : Nat → UInt8) : ((s.iterate a c r left).jobs c).phase = .finished ∨
      (s.jobs c).done < ((s.iterate a c r left).jobs c).done := by
  unfold iterate
  dsimp only
  generalize s.jobs c = j at hrun
  rw [if_neg (not_not.mpr hrun)]
  split
  · simp [setJob]
  split
  · simp [setJob]
  cases r with
  | eintr => exact absurd rfl hr
  | failed => simp [setJob, fill]
  | got n =>
    dsimp only
    split
    · simp [setJob]
    · rename_i hzero
      right
      simpa [setJob, fill] using Nat.pos_of_ne_zero hzero

/-- **Every read** that is not interrupted brings the call nearer to its end. -/
theorem SplitInv.rank_read (h : SplitInv a dst s) (hrun : (s.jobs c).phase = .running) {r : Pread}
    (hr : r ≠ .eintr) (left : Nat → UInt8) : rank a (s.iterate a c r left) < rank a s := by
  have hc : c < handed a s.pc := by
    by_contra hge
    rw [h.idle c (Nat.le_of_not_lt hge)] at hrun
    cases hrun
  have hcn : c < a.nsplit := Nat.lt_of_lt_of_le hc h.handed_le
  have hlen := (h.job c hc).len
  have honward := iterate_onward (a := a) hrun hr left
  rcases iterate_cases a s c r left with heq | hit
  · rw [heq, hrun] at honward
    rcases honward with hfin | hlt
    · cases hfin
    · exact absurd hlt (Nat.lt_irrefl _)
  have hless : jobRank a (s.iterate a c r left) c < jobRank a s c := by
    have hle := hit.done_le (h.job c hc).done_le
    unfold jobRank
    rw [hrun]
    dsimp only
    split
    · rename_i hidle
      exact absurd hidle hit.begun
    · rename_i hgoes
      have := honward.resolve_left (by rw [hgoes]; exact ReadPhase.noConfusion)
      omega
    · omega
  unfold rank
  rw [hit.pc]
  refine Nat.add_lt_add_left (Finset.sum_lt_sum (fun c' _ => ?_) ⟨c, Finset.mem_range.mpr hcn, hless⟩) _
  by_cases hcc : c' = c
  · rw [hcc]
    exact Nat.le_of_lt hless
  · unfold jobRank
    rw [hit.others c' hcc]

/-- A step of the call that touches no loop. -/
theorem rank_move {pc : SplitPc} (hlt : callRank a pc < callRank a s.pc) :
    rank a { s with pc := pc } < rank a s :=
  Nat.add_lt_add_right hlt _

/-- Handing out a range leaves its loop what it had before it. -/
theorem SplitInv.rank_handOut (h : SplitInv a dst s) (hpc : s.pc = .handing c) {pc : SplitPc}
    (hto : pc = .reading c ∨ pc = .handing (c + 1)) (hc : c < a.nsplit) :
    rank a { s.setJob c (SplitRead.handOut a c) with pc := pc } < rank a s := by
  have hcall : callRank a pc < callRank a s.pc := by
    rw [hpc]
    rcases hto with rfl | rfl <;> simp only [callRank] <;> omega
  refine Nat.add_lt_add_of_lt_of_le hcall (Finset.sum_le_sum fun c' _ => ?_)
  by_cases hcc : c' = c
  · subst hcc
    have hidle := h.idle c' (by rw [hpc]; exact Nat.le_refl _)
    unfold jobRank
    rw [hidle]
    simp only [setJob, Function.update_self, SplitRead.handOut]
    exact Nat.le_refl _
  · simp [jobRank, setJob, hcc]

/-- **Never stuck.** A call that has not returned can take a step towards its end. -/
theorem SplitInv.exists_step (h : SplitInv a dst s) (hpc : ∀ ok, s.pc ≠ .returned ok) :
    ∃ act, SplitInv a dst (step a s act) ∧ rank a (step a s act) < rank a s := by
  -- a loop that the call waits for goes on
  have hwait : ∀ c < handed a s.pc, (s.jobs c).phase ≠ .finished →
      ∃ act, SplitInv a dst (step a s act) ∧ rank a (step a s act) < rank a s := by
    intro c hc hfin
    have hrun : (s.jobs c).phase = .running := by
      cases hphase : (s.jobs c).phase with
      | idle => exact absurd hphase (h.job c hc).begun
      | running => rfl
      | finished => exact absurd hphase hfin
    refine ⟨.read c .failed fun _ => 0, ?_, h.rank_read hrun Pread.noConfusion _⟩
    rcases iterate_cases a s c .failed (fun _ => 0) with heq | hit
    · show SplitInv a dst (s.iterate a c .failed fun _ => 0)
      rwa [heq]
    · exact h.iterated hit
  have hcall : rank a (s.advance a true) < rank a s →
      ∃ act, SplitInv a dst (step a s act) ∧ rank a (step a s act) < rank a s :=
    fun hlt => ⟨.call true, h.advance true, hlt⟩
  cases hs : s.pc with
  | direct =>
    by_cases hfin : (s.jobs 0).phase = .finished
    · refine hcall ?_
      unfold SplitRead.advance
      rw [hs]
      dsimp only
      rw [if_pos hfin]
      exact rank_move (by rw [hs]; exact Nat.one_pos)
    · exact hwait 0 (by rw [hs]; exact Nat.one_pos) hfin
  | handing c =>
    refine hcall ?_
    unfold SplitRead.advance
    rw [hs]
    dsimp only
    split
    · rename_i hc
      refine h.rank_handOut hs ?_ hc
      split
      · exact Or.inl rfl
      · exact Or.inr rfl
    · refine rank_move ?_
      rw [hs]
      simp only [callRank]
      omega
  | reading c =>
    by_cases hfin : (s.jobs c).phase = .finished
    · refine hcall ?_
      unfold SplitRead.advance
      rw [hs]
      dsimp only
      rw [if_pos hfin]
      refine rank_move ?_
      have := h.handed_le
      rw [hs] at this ⊢
      simp only [callRank, handed] at this ⊢
      omega
    · exact hwait c (by rw [hs]; exact Nat.lt_succ_self c) hfin
  | joining c ok =>
    by_cases hc : c < a.nsplit
    · by_cases hfin : (s.jobs c).phase = .finished
      · refine hcall ?_
        unfold SplitRead.advance
        rw [hs]
        dsimp only
        rw [if_pos hc, if_pos hfin]
        refine rank_move ?_
        rw [hs]
        simp only [callRank]
        omega
      · exact hwait c (by rw [hs]; exact hc) hfin
    · refine hcall ?_
      unfold SplitRead.advance
      rw [hs]
      dsimp only
      rw [if_neg hc]
      refine rank_move ?_
      rw [hs]
      exact Nat.succ_pos _
  | returned ok => exact absurd hs (hpc ok)

/-- From every state the call can be brought to its end. -/
theorem SplitInv.exists_return (h : SplitInv a dst s) :
    ∃ more : List SplitAction, ∃ ok, (more.foldl (step a) s).pc = .returned ok := by
  induction hrank : rank a s using Nat.strong_induction_on generalizing s with
  | _ n ih =>
    by_cases hpc : ∃ ok, s.pc = .returned ok
    · obtain ⟨ok, hok⟩ := hpc
      exact ⟨[], ok, hok⟩
    · push Not at hpc
      obtain ⟨act, hinv, hlt⟩ := h.exists_step hpc
      obtain ⟨more, ok, hmore⟩ := ih _ (hrank ▸ hlt) hinv rfl
      exact ⟨act :: more, ok, hmore⟩

/-- **The call.** It can always be brought to return.  When it has returned, in whatever order its
    threads ran and whatever their reads did, the ranges it handed out make up the range without
    overlap; it returned true exactly when every byte of the range was read from its own file
    offset, the buffer then holds that part of the file, and no byte outside the range was
    written. -/
theorem pread_split_reads (a : SplitArgs) (dst : Nat → UInt8) :
    (∀ acts, ∃ more ok, (run a dst (acts ++ more)).pc = .returned ok) ∧
    ∀ acts ok, (run a dst acts).pc = .returned ok →
      (∀ x, x < a.bytes.toNat ↔ ∃ c < a.nsplit, InRange ((run a dst acts).jobs c) x) ∧
      (∀ c < a.nsplit, ∀ c' < a.nsplit, ∀ x, InRange ((run a dst acts).jobs c) x →
        InRange ((run a dst acts).jobs c') x → c = c') ∧
      (ok = true ↔ ∀ x < a.bytes.toNat, ReadOwn a (run a dst acts) x) ∧
      (ok = true → ∀ x < a.bytes.toNat, (run a dst acts).dst x = a.file (a.offset.toNat + x)) ∧
      ∀ x, a.bytes.toNat ≤ x → (run a dst acts).dst x = dst x := by
  refine ⟨fun acts => ?_, fun acts ok hret => ?_⟩
  · obtain ⟨more, ok, hmore⟩ := (splitInv_run a dst acts).exists_return
    refine ⟨more, ok, ?_⟩
    unfold run
    rw [List.foldl_append]
    exact hmore
  have h := splitInv_run a dst acts
  generalize run a dst acts = s at h hret ⊢
  have hall : handed a s.pc = a.nsplit := by
    rw [hret]
    rfl
  have hcall := h.call
  unfold CallInv at hcall
  rw [hret] at hcall
  obtain ⟨hfin, hok⟩ := hcall
  have hjob := fun c (hc : c < a.nsplit) => h.job c (hall.symm ▸ hc)
  -- a byte of a range that was read to its end
  have hbyte : ok = true → ∀ x < a.bytes.toNat,
      ReadOwn a s x ∧ s.dst x = a.file (a.offset.toNat + x) := by
    intro htrue x hx
    have hdone : ∀ c < a.nsplit, (s.jobs c).done = (s.jobs c).len := fun c hc =>
      ((hjob c hc).result (hfin c hc)).mp (hok.mp htrue c hc)
    obtain ⟨c, hc, hin⟩ := SplitArgs.exists_range hx
    have hoff := h.offset_eq hall hdone hc
    have hstart := (hjob c hc).start
    have hk : x - a.rangeStart c < (s.jobs c).done := by
      rw [hdone c hc, (hjob c hc).len]
      omega
    have hpos : (s.jobs c).dst + (x - a.rangeStart c) = x := by omega
    have hfile : (s.jobs c).offset + (x - a.rangeStart c) = a.offset.toNat + x := by omega
    obtain ⟨e, he, hlo, hhi, hfrom⟩ := (hjob c hc).read _ hk
    have hbytes := (hjob c hc).bytes _ hk
    rw [hpos] at hlo hhi hfrom hbytes
    rw [hfile] at hfrom hbytes
    exact ⟨⟨e, he, hlo, hhi, hfrom⟩, hbytes⟩
  refine ⟨fun x => ⟨fun hx => ?_, ?_⟩, ?_, ⟨fun htrue x hx => (hbyte htrue x hx).1, fun hread => ?_⟩,
    fun htrue x hx => (hbyte htrue x hx).2, h.frame⟩
  · obtain ⟨c, hc, hin⟩ := SplitArgs.exists_range hx
    exact ⟨c, hc, (h.inRange hall hc).mpr hin⟩
  · rintro ⟨c, hc, hin⟩
    have := ((h.inRange hall hc).mp hin).2
    have := SplitArgs.range_le hc
    omega
  · intro c hc c' hc' x hx hx'
    exact SplitArgs.range_disjoint hc hc' ((h.inRange hall hc).mp hx) ((h.inRange hall hc').mp hx')
  · -- a loop that gave up has left the byte it was at
    rw [hok]
    intro c hc
    rw [(hjob c hc).result (hfin c hc)]
    by_contra hne
    have hle := (hjob c hc).done_le
    have hin : InRange (s.jobs c) ((s.jobs c).dst + (s.jobs c).done) := ⟨by omega, by omega⟩
    refine h.not_readOwn hall hc hin (Nat.le_refl _) (hread _ ?_)
    have := ((h.inRange hall hc).mp hin).2
    have := SplitArgs.range_le hc
    omega

/-- Two pages; one of the reads is short, another is interrupted. -/
example : (run ⟨fun x => UInt8.ofNat x, 4096, 32768, 2⟩ (fun _ => 0)
    [.call true, .read 0 (.got 100) fun _ => 0, .call true, .read 1 .eintr fun _ => 0,
      .read 1 (.got 16384) fun _ => 0, .read 0 (.got 20000) fun _ => 0, .read 1 .failed fun _ => 0,
      .call false, .read 0 .failed fun _ => 0, .call false, .call false, .call false,
      .call false]).pc = .returned true := by decide

end SplitRead

end DS4.FlashMoe
