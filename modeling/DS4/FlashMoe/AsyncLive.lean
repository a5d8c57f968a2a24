import DS4.FlashMoe.AsyncBytes
import Mathlib.Tactic.IntervalCases

namespace DS4.FlashMoe

/-!
# Flash-MoE — the asynchronous prefill reader never strands a slot

* `AsyncWake` — no thread sleeps through its event, in every run.
* `AsyncGood` — a cancellation hits a slot that is being read only while a reader has one of its
  chunks, and a submission that has waited finds its expert still without a slot.
* `async_reader_never_strands` — what holds in every run of such actions.
* `async_reader_strands` — two runs of other ones.
-/

variable {env : AsyncEnv}

/-! ### Sleeping threads -/

/-- **Wake-ups**: while a chunk may be claimed no reader sleeps, and the consumer sleeps only over
    a slot that is still to be read. -/
structure AsyncWake (env : AsyncEnv) (s : AsyncReader) : Prop where
  readers : (∃ i < env.nSlots, (s.slots i).claimable s.xlayerPaused = true) →
    ∀ r, s.readers r ≠ .asleep
  bounded : ∀ r j, s.readers r = .reading j → r < env.nReaders
  consuming : ∀ i, (s.slots i).state = .consuming →
    (∃ l e, s.consumer = .uploading i l e) ∨ ∃ l e b, s.consumer = .uploaded i l e b
  waiting : ∀ l e, s.consumer = .waiting l e → ∃ i, s.findLocked env l e = some i ∧
    ((s.slots i).state = .queued ∨ (s.slots i).state = .reading) ∧
    (s.slots i).speculative = false

namespace AsyncReader

theorem broadcast_not_asleep (s : AsyncReader) (r : Nat) : s.broadcast.readers r ≠ .asleep := by
  unfold broadcast
  cases hr : s.readers r <;> simp [hr]

theorem broadcast_reading {s : AsyncReader} {r : Nat} {j : ChunkJob} :
    s.broadcast.readers r = .reading j ↔ s.readers r = .reading j := by
  unfold broadcast
  cases hr : s.readers r <;> simp [hr]

theorem broadcast_not_waiting (s : AsyncReader) (l e : Nat) :
    s.broadcast.consumer ≠ .waiting l e := by
  unfold broadcast
  cases hc : s.consumer <;> simp [hc]

theorem broadcast_uploading {s : AsyncReader} {i l e : Nat} :
    s.broadcast.consumer = .uploading i l e ↔ s.consumer = .uploading i l e := by
  unfold broadcast
  cases hc : s.consumer <;> simp [hc]

theorem broadcast_uploaded {s : AsyncReader} {i l e : Nat} {b : Option (Family → List UInt8)} :
    s.broadcast.consumer = .uploaded i l e b ↔ s.consumer = .uploaded i l e b := by
  unfold broadcast
  cases hc : s.consumer <;> simp [hc]

/-- The search depends on the owners of the slots alone. -/
theorem findLocked_congr {s t : AsyncReader} {l e : Nat}
    (h : ∀ i, (t.slots i).owns l e = (s.slots i).owns l e) :
    t.findLocked env l e = s.findLocked env l e := by
  unfold findLocked firstSlot
  simp only [h]

end AsyncReader

namespace AsyncWake

variable {s : AsyncReader}

/-- After a broadcast nothing sleeps. -/
theorem broadcast {t : AsyncReader}
    (hbounded : ∀ r j, t.readers r = .reading j → r < env.nReaders)
    (hconsuming : ∀ i, (t.slots i).state = .consuming →
      (∃ l e, t.consumer = .uploading i l e) ∨ ∃ l e b, t.consumer = .uploaded i l e b) :
    AsyncWake env t.broadcast where
  readers := fun _ => t.broadcast_not_asleep
  bounded := fun r j hr => hbounded r j ((AsyncReader.broadcast_reading).mp hr)
  consuming := by
    intro i hs
    obtain ⟨l, e, hc⟩ | ⟨l, e, b, hc⟩ := hconsuming i hs
    · exact Or.inl ⟨l, e, (AsyncReader.broadcast_uploading).mpr hc⟩
    · exact Or.inr ⟨l, e, b, (AsyncReader.broadcast_uploaded).mpr hc⟩
  waiting := fun l e hc => absurd hc (t.broadcast_not_waiting l e)

/-- A slot that is not consumed before is changed, with a broadcast. -/
theorem setSlot_broadcast (h : AsyncWake env s) {i : Nat} {x : AsyncSlot}
    (hx : x.state = .consuming → (s.slots i).state = .consuming) :
    AsyncWake env (s.setSlot i x).broadcast := by
  refine broadcast (fun r j hr => h.bounded r j hr) ?_
  intro i' hs
  apply h.consuming
  by_cases hi : i' = i
  · obtain rfl := hi
    rw [AsyncReader.setSlot_slots_self] at hs
    exact hx hs
  · rwa [AsyncReader.setSlot_slots_ne _ _ hi] at hs

/-- A slot and a reader change without a broadcast: the slot stays with its owner, and nothing
    becomes claimable. -/
theorem setSlot_reader (h : AsyncWake env s) {i r : Nat} {x : AsyncSlot} {t : ReaderThread}
    (hr : s.readers r ≠ .asleep) (ht : t ≠ .asleep)
    (hbound : ∀ j, t = .reading j → r < env.nReaders)
    (howns : ∀ l e, x.owns l e = (s.slots i).owns l e)
    (hclaim : x.claimable s.xlayerPaused = true → (s.slots i).claimable s.xlayerPaused = true)
    (hstate : x.state = .reading) (hspec : x.speculative = (s.slots i).speculative) :
    AsyncWake env { s.setSlot i x with readers := Function.update s.readers r t } where
  readers := by
    rintro ⟨i', hi', hc⟩ r'
    have hold : (s.slots i').claimable s.xlayerPaused = true := by
      replace hc : ((s.setSlot i x).slots i').claimable s.xlayerPaused = true := hc
      by_cases hi : i' = i
      · obtain rfl := hi
        rw [AsyncReader.setSlot_slots_self] at hc
        exact hclaim hc
      · rwa [AsyncReader.setSlot_slots_ne _ _ hi] at hc
    show Function.update s.readers r t r' ≠ .asleep
    by_cases hrr : r' = r
    · obtain rfl := hrr
      rwa [Function.update_self]
    · rw [Function.update_of_ne hrr]
      exact h.readers ⟨i', hi', hold⟩ r'
  bounded := by
    intro r' j (hj : Function.update s.readers r t r' = .reading j)
    by_cases hrr : r' = r
    · obtain rfl := hrr
      rw [Function.update_self] at hj
      exact hbound j hj
    · rw [Function.update_of_ne hrr] at hj
      exact h.bounded r' j hj
  consuming := by
    intro i' (hs : ((s.setSlot i x).slots i').state = .consuming)
    apply h.consuming
    by_cases hi : i' = i
    · obtain rfl := hi
      rw [AsyncReader.setSlot_slots_self, hstate] at hs
      exact absurd hs (by simp)
    · rwa [AsyncReader.setSlot_slots_ne _ _ hi] at hs
  waiting := by
    intro l e hc
    obtain ⟨i0, hfind, hst, hsp⟩ := h.waiting l e hc
    refine ⟨i0, ?_, ?_⟩
    · rw [← hfind]
      apply AsyncReader.findLocked_congr
      intro i'
      show ((s.setSlot i x).slots i').owns l e = _
      by_cases hi : i' = i
      · obtain rfl := hi
        rw [AsyncReader.setSlot_slots_self, howns]
      · rw [AsyncReader.setSlot_slots_ne _ _ hi]
    · show (((s.setSlot i x).slots i0).state = _ ∨ ((s.setSlot i x).slots i0).state = _) ∧
        ((s.setSlot i x).slots i0).speculative = false
      by_cases hi : i0 = i
      · obtain rfl := hi
        rw [AsyncReader.setSlot_slots_self]
        exact ⟨Or.inr hstate, hspec.trans hsp⟩
      · rw [AsyncReader.setSlot_slots_ne _ _ hi]
        exact ⟨hst, hsp⟩

theorem scan (h : AsyncWake env s) {r : Nat} (hr : s.readers r = .ready) (hlt : r < env.nReaders) :
    AsyncWake env (s.scan env r) := by
  unfold AsyncReader.scan
  cases hf : s.firstSlot env (fun x => x.claimable s.xlayerPaused) with
  | none =>
    -- a reader falls asleep only when there is nothing to claim
    have hnone : ∀ i < env.nSlots, ¬ (s.slots i).claimable s.xlayerPaused = true := by
      intro i hi
      have := List.find?_eq_none.mp hf i (List.mem_range.mpr hi)
      exact this
    refine ⟨?_, ?_, h.consuming, h.waiting⟩
    · rintro ⟨i, hi, hc⟩
      exact absurd hc (hnone i hi)
    · intro r' j (hj : Function.update s.readers r .asleep r' = .reading j)
      by_cases hrr : r' = r
      · rw [hrr, Function.update_self] at hj
        exact absurd hj (by simp)
      · rw [Function.update_of_ne hrr] at hj
        exact h.bounded r' j hj
  | some i =>
    have hc := (AsyncInv.firstSlot_spec hf).2
    have hne : (s.slots i).state ≠ .empty := by
      intro hs
      simp [AsyncSlot.claimable, hs] at hc
    apply h.setSlot_reader
    · simp [hr]
    · simp
    · exact fun _ _ => hlt
    · intro l e
      rw [Bool.eq_iff_iff, AsyncSlot.owns_iff, AsyncSlot.owns_iff]
      exact ⟨fun ho => ⟨hne, ho.2⟩, fun ho => ⟨by simp [AsyncSlot.claim], ho.2⟩⟩
    · exact fun _ => hc
    · rfl
    · rfl

theorem pread (h : AsyncWake env s) (hinv : AsyncInv env s) {r : Nat} {j : ChunkJob}
    (hr : s.readers r = .reading j) (ok : Bool) (left : Nat → UInt8) :
    AsyncWake env (s.pread env r j ok left) := by
  have hjob : s.jobsOn j.slot r = some j := by
    unfold AsyncReader.jobsOn
    rw [hr, ReaderThread.jobOn_self]
  have hreading := ((hinv.slot j.slot).job r j hjob).reading
  apply h.setSlot_reader
  · simp [hr]
  · simp
  · exact fun _ _ => h.bounded r j hr
  · exact fun _ _ => rfl
  · exact fun hc => hc
  · exact hreading
  · rfl

theorem complete_not_consuming (x : AsyncSlot) (j : ChunkJob) (ok : Bool)
    (h : (x.complete j ok).state = .consuming) : x.state = .consuming := by
  unfold AsyncSlot.complete AsyncSlot.countDone at h
  dsimp only at h
  split at h
  · split at h
    · exact absurd h (by simp)
    · exact h
  · split at h
    · exfalso
      dsimp only at h
      split at h <;> exact absurd h (by simp)
    · exact h

theorem complete (h : AsyncWake env s) (r : Nat) (j : ChunkJob) (ok : Bool) :
    AsyncWake env (s.complete r j ok) := by
  apply broadcast
  · intro r' j' (hj : Function.update s.readers r .ready r' = .reading j')
    by_cases hrr : r' = r
    · rw [hrr, Function.update_self] at hj
      exact absurd hj (by simp)
    · rw [Function.update_of_ne hrr] at hj
      exact h.bounded r' j' hj
  · intro i (hs : ((s.setSlot j.slot _).slots i).state = .consuming)
    apply h.consuming
    by_cases hi : i = j.slot
    · rw [hi, AsyncReader.setSlot_slots_self] at hs
      rw [hi]
      exact complete_not_consuming _ _ _ hs
    · rwa [AsyncReader.setSlot_slots_ne _ _ hi] at hs

theorem promote (h : AsyncWake env s) (i : Nat) : AsyncWake env (s.promote i) := by
  unfold AsyncReader.promote
  split
  · exact h.setSlot_broadcast (fun hs => hs)
  · exact h

theorem fill (h : AsyncWake env s) (i : Nat) (q : Submission) : AsyncWake env (s.fill env i q) :=
  h.setSlot_broadcast (fun hs => absurd hs (by simp [AsyncSlot.fill]))

theorem submit (h : AsyncWake env s) (q : Submission) : AsyncWake env (s.submit env q) := by
  unfold AsyncReader.submit
  dsimp only
  split
  · exact h
  · split
    · split
      · exact h
      · exact h.promote _
    · split
      · exact h.fill _ q
      · exact ⟨h.readers, h.bounded, h.consuming, h.waiting⟩

theorem resume (h : AsyncWake env s) (k : Nat) : AsyncWake env (s.resume env k) := by
  unfold AsyncReader.resume
  split
  · exact h
  · next q _ =>
    split
    · next i _ =>
      have := h.fill i q
      exact ⟨this.readers, this.bounded, this.consuming, this.waiting⟩
    · exact h

theorem cancelWhere (h : AsyncWake env s) (p : AsyncSlot → Bool) :
    AsyncWake env (s.cancelWhere env p) := by
  refine broadcast (fun r j hr => h.bounded r j hr) ?_
  intro i hs
  apply h.consuming
  replace hs : (if i < env.nSlots ∧ p (s.slots i) then (s.slots i).cancel
    else s.slots i).state = .consuming := hs
  split at hs
  · obtain ⟨-, hc⟩ | ⟨hr, hc⟩ | ⟨-, hc⟩ := (s.slots i).cancel_cases <;> rw [hc] at hs
    · exact absurd hs (by simp [AsyncSlot.discard])
    · exact hs
    · exact hs
  · exact hs

theorem setPaused (h : AsyncWake env s) (paused : Bool) : AsyncWake env (s.setPaused paused) := by
  unfold AsyncReader.setPaused
  dsimp only
  cases paused with
  | false => exact broadcast h.bounded h.consuming
  | true =>
    refine ⟨?_, h.bounded, h.consuming, h.waiting⟩
    rintro ⟨i, hi, hc⟩
    -- what may be claimed during a pause may be claimed without one
    have hc : (s.slots i).claimable true = true := hc
    refine h.readers ⟨i, hi, ?_⟩
    simp only [AsyncSlot.claimable, Bool.and_eq_true, Bool.not_eq_true', Bool.true_and] at hc ⊢
    exact ⟨hc.1, by rw [hc.2, Bool.and_false]⟩

theorem promote_owns (s : AsyncReader) (i i' l e : Nat) :
    ((s.promote i).slots i').owns l e = (s.slots i').owns l e := by
  unfold AsyncReader.promote
  split
  · show ((s.setSlot i _).slots i').owns l e = _
    by_cases hi : i' = i
    · rw [hi, AsyncReader.setSlot_slots_self]
      rfl
    · rw [AsyncReader.setSlot_slots_ne _ _ hi]
  · rfl

theorem promote_speculative (s : AsyncReader) (i : Nat) :
    ((s.promote i).slots i).speculative = false := by
  unfold AsyncReader.promote
  split
  · show ((s.setSlot i _).slots i).speculative = false
    rw [AsyncReader.setSlot_slots_self]
  · next h => simpa using h

/-- The consumer looks for its slot. -/
theorem consumeTurn (h : AsyncWake env s) (layer expert : Nat)
    (hfree : ∀ i, (s.slots i).state ≠ .consuming) :
    AsyncWake env (s.consumeTurn env layer expert) := by
  unfold AsyncReader.consumeTurn
  cases hf : s.findLocked env layer expert with
  | none =>
    exact ⟨h.readers, h.bounded, fun i hs => absurd hs (hfree i), fun l e hc => by simp at hc⟩
  | some i =>
    dsimp only
    have ht := h.promote i
    have hfind : (s.promote i).findLocked env layer expert = some i := by
      rw [← hf]
      exact AsyncReader.findLocked_congr (fun i' => promote_owns s i i' layer expert)
    have hspec := promote_speculative s i
    have hfree' : ∀ i', ((s.promote i).slots i').state ≠ .consuming := by
      intro i' hs
      unfold AsyncReader.promote at hs
      split at hs
      · replace hs : ((s.setSlot i _).slots i').state = .consuming := hs
        by_cases hi : i' = i
        · rw [hi, AsyncReader.setSlot_slots_self] at hs
          exact hfree i hs
        · rw [AsyncReader.setSlot_slots_ne _ _ hi] at hs
          exact hfree i' hs
      · exact hfree i' hs
    have howns := (AsyncInv.firstSlot_spec hfind).2
    generalize s.promote i = t at ht hfind hspec hfree' howns
    split
    · next hready =>
      refine ⟨?_, ht.bounded, ?_, fun l e hc => by simp at hc⟩
      · rintro ⟨i', hi', hc⟩
        refine ht.readers ⟨i', hi', ?_⟩
        replace hc : ((t.setSlot i (t.slots i).take).slots i').claimable t.xlayerPaused = true := hc
        by_cases hi : i' = i
        · rw [hi, AsyncReader.setSlot_slots_self] at hc
          simp [AsyncSlot.claimable, AsyncSlot.take] at hc
        · rwa [AsyncReader.setSlot_slots_ne _ _ hi] at hc
      · intro i' (hs : ((t.setSlot i (t.slots i).take).slots i').state = .consuming)
        by_cases hi : i' = i
        · exact Or.inl ⟨layer, expert, by rw [hi]⟩
        · rw [AsyncReader.setSlot_slots_ne _ _ hi] at hs
          exact absurd hs (hfree' i')
    · next herr =>
      have hx : (t.slots i).discard.state = .consuming → (t.slots i).state = .consuming :=
        fun hs => absurd hs (by simp [AsyncSlot.discard])
      have hb := ht.setSlot_broadcast hx
      refine ⟨hb.readers, hb.bounded, ?_, fun l e hc => by simp at hc⟩
      intro i' (hs : ((t.setSlot i (t.slots i).discard).slots i').state = .consuming)
      by_cases hi : i' = i
      · rw [hi, AsyncReader.setSlot_slots_self] at hs
        exact absurd hs (by simp [AsyncSlot.discard])
      · rw [AsyncReader.setSlot_slots_ne _ _ hi] at hs
        exact absurd hs (hfree' i')
    · next hnr hne =>
      refine ⟨ht.readers, ht.bounded, fun i' hs => absurd hs (hfree' i'), ?_⟩
      intro l e hc
      obtain ⟨rfl, rfl⟩ := Consumer.waiting.inj hc
      refine ⟨i, hfind, ?_, hspec⟩
      -- the slot is not empty, not consumed, and not finished
      cases hs : (t.slots i).state with
      | queued => exact Or.inl rfl
      | reading => exact Or.inr rfl
      | ready => exact absurd hs hnr
      | error => exact absurd hs hne
      | consuming => exact absurd hs (hfree' i)
      | empty => simp [AsyncSlot.owns, hs] at howns

theorem step (h : AsyncWake env s) (hinv : AsyncInv env s) (a : AsyncAction) :
    AsyncWake env (s.step env a) := by
  have hfree : (∀ i l e, s.consumer ≠ .uploading i l e) →
      (∀ i l e b, s.consumer ≠ .uploaded i l e b) → ∀ i, (s.slots i).state ≠ .consuming := by
    intro h1 h2 i hs
    obtain ⟨l, e, hc⟩ | ⟨l, e, b, hc⟩ := h.consuming i hs
    · exact h1 i l e hc
    · exact h2 i l e b hc
  have hmove := s.moves env a
  generalize s.step env a = t at hmove ⊢
  cases hmove with
  | stays => exact h
  | scan hr hlt => exact h.scan hr hlt
  | pread hr ok left => exact h.pread hinv hr ok left
  | complete => exact h.complete _ _ _
  | @readerWakes r hr =>
    refine ⟨fun hc r' => ?_, ?_, h.consuming, h.waiting⟩
    · exact absurd hr (h.readers hc r)
    · intro r' j (hj : Function.update s.readers r .ready r' = .reading j)
      by_cases hrr : r' = r
      · rw [hrr, Function.update_self] at hj
        exact absurd hj (by simp)
      · rw [Function.update_of_ne hrr] at hj
        exact h.bounded r' j hj
  | submit q => exact h.submit q
  | resume k => exact h.resume k
  | setPaused paused => exact h.setPaused paused
  | cancelAll => exact h.cancelWhere (fun _ => true)
  | cancelExpert layer expert =>
    unfold AsyncReader.cancelExpert
    split
    · exact h
    · exact h.cancelWhere _
  | cancelLayerMispredicted layer counts =>
    exact h.cancelWhere (AsyncReader.mispredicted env layer counts)
  | consume layer expert hc =>
    exact h.consumeTurn layer expert (hfree (by simp [hc]) (by simp [hc]))
  | consumerWakes hc =>
    exact ⟨h.readers, h.bounded,
      fun i hs => absurd hs (hfree (by simp [hc]) (by simp [hc]) i), fun l e hc => by simp at hc⟩
  | consumerTurn hc => exact h.consumeTurn _ _ (hfree (by simp [hc]) (by simp [hc]))
  | upload hc ok =>
    refine ⟨h.readers, h.bounded, ?_, fun l e hc => by simp [AsyncReader.upload] at hc⟩
    intro i' hs
    obtain ⟨l, e, hc'⟩ | ⟨l, e, b, hc'⟩ := h.consuming i' hs
    · rw [hc] at hc'
      obtain ⟨rfl, rfl, rfl⟩ := Consumer.uploading.inj hc'
      exact Or.inr ⟨_, _, _, rfl⟩
    · rw [hc] at hc'
      exact absurd hc' (by simp)
  | @release i layer expert banks hc =>
    have hx : (s.slots i).discard.state = .consuming → (s.slots i).state = .consuming :=
      fun hs => absurd hs (by simp [AsyncSlot.discard])
    have hb := h.setSlot_broadcast hx
    refine ⟨hb.readers, hb.bounded, ?_, fun l e hc => by simp [AsyncReader.release] at hc⟩
    intro i' (hs : ((s.setSlot i (s.slots i).discard).slots i').state = .consuming)
    -- the slot that is released was the only one
    by_cases hi : i' = i
    · rw [hi, AsyncReader.setSlot_slots_self] at hs
      exact absurd hs (by simp [AsyncSlot.discard])
    · rw [AsyncReader.setSlot_slots_ne _ _ hi] at hs
      obtain ⟨l, e, hc'⟩ | ⟨l, e, b, hc'⟩ := h.consuming i' hs
      · rw [hc] at hc'
        exact absurd hc' (by simp)
      · rw [hc] at hc'
        exact absurd (Consumer.uploaded.inj hc').1.symm hi

end AsyncWake

/-! ### Runs that strand no slot -/

/-- Every slot that a cancellation hits while it is being read has a chunk in flight. -/
def CancelsInFlight (env : AsyncEnv) (s : AsyncReader) (p : AsyncSlot → Bool) : Prop :=
  ∀ i < env.nSlots, p (s.slots i) = true → (s.slots i).state = .reading →
    (s.slots i).chunksDone < (s.slots i).chunksClaimed

/-- The condition on an action: cancellations hit only reads in flight, and a submission that has
    waited finds its expert still without a slot. -/
def AsyncGood (env : AsyncEnv) (s : AsyncReader) : AsyncAction → Prop
  | .cancelAll => CancelsInFlight env s (fun _ => true)
  | .cancelExpert layer expert =>
    expert < env.nExpert → CancelsInFlight env s (fun x => x.owns layer expert)
  | .cancelLayerMispredicted layer counts =>
    CancelsInFlight env s (AsyncReader.mispredicted env layer counts)
  | .resume k => ∀ q, s.submissions[k]? = some q → s.findLocked env q.layer q.expert = none
  | _ => True

/-- What good actions keep. -/
structure AsyncLive (env : AsyncEnv) (s : AsyncReader) : Prop where
  drains : ∀ i, (s.slots i).canceled = true → (s.slots i).chunksDone < (s.slots i).chunksClaimed
  unique : ∀ l e, ∀ i < env.nSlots, ∀ i' < env.nSlots, (s.slots i).owns l e = true →
    (s.slots i').owns l e = true → i = i'

namespace AsyncLive

variable {s : AsyncReader}

/-- One slot changes: it drains, and it has no new owner. -/
theorem setSlot (h : AsyncLive env s) {i : Nat} {x : AsyncSlot}
    (hdrain : x.canceled = true → x.chunksDone < x.chunksClaimed)
    (howns : ∀ l e, x.owns l e = true → (s.slots i).owns l e = true) :
    AsyncLive env (s.setSlot i x) := by
  have hold : ∀ i' l e, ((s.setSlot i x).slots i').owns l e = true →
      (s.slots i').owns l e = true := by
    intro i' l e ho
    by_cases hi : i' = i
    · rw [hi, AsyncReader.setSlot_slots_self] at ho
      rw [hi]
      exact howns l e ho
    · rwa [AsyncReader.setSlot_slots_ne _ _ hi] at ho
  refine ⟨?_, fun l e i1 h1 i2 h2 ho1 ho2 =>
    h.unique l e i1 h1 i2 h2 (hold i1 l e ho1) (hold i2 l e ho2)⟩
  intro i' hc
  by_cases hi : i' = i
  · rw [hi, AsyncReader.setSlot_slots_self] at hc ⊢
    exact hdrain hc
  · rw [AsyncReader.setSlot_slots_ne _ _ hi] at hc ⊢
    exact h.drains i' hc

/-- Only the slots matter. -/
theorem of_slots {t : AsyncReader} (h : AsyncLive env s) (ht : t.slots = s.slots) :
    AsyncLive env t := by
  refine ⟨?_, ?_⟩ <;> rw [ht]
  · exact h.drains
  · exact h.unique

theorem fill (h : AsyncLive env s) {i : Nat} {q : Submission}
    (hnone : s.findLocked env q.layer q.expert = none) : AsyncLive env (s.fill env i q) := by
  have hfree : ∀ i' < env.nSlots, ¬ (s.slots i').owns q.layer q.expert = true := fun i' hi' =>
    List.find?_eq_none.mp hnone i' (List.mem_range.mpr hi')
  refine of_slots (s := s.setSlot i ((s.slots i).fill env q)) ⟨?_, ?_⟩ rfl
  · intro i' hc
    by_cases hi : i' = i
    · rw [hi, AsyncReader.setSlot_slots_self] at hc
      exact absurd hc (by simp [AsyncSlot.fill])
    · rw [AsyncReader.setSlot_slots_ne _ _ hi] at hc ⊢
      exact h.drains i' hc
  · -- the new slot is the only one of its expert
    have hnew : ∀ l e, ((s.slots i).fill env q).owns l e = true → l = q.layer ∧ e = q.expert := by
      intro l e ho
      obtain ⟨-, hl, he⟩ := (AsyncSlot.owns_iff).mp ho
      exact ⟨hl.symm, he.symm⟩
    intro l e i1 h1 i2 h2 ho1 ho2
    by_cases e1 : i1 = i
    · by_cases e2 : i2 = i
      · exact e1.trans e2.symm
      · rw [e1, AsyncReader.setSlot_slots_self] at ho1
        rw [AsyncReader.setSlot_slots_ne _ _ e2] at ho2
        obtain ⟨rfl, rfl⟩ := hnew l e ho1
        exact absurd ho2 (hfree i2 h2)
    · rw [AsyncReader.setSlot_slots_ne _ _ e1] at ho1
      by_cases e2 : i2 = i
      · rw [e2, AsyncReader.setSlot_slots_self] at ho2
        obtain ⟨rfl, rfl⟩ := hnew l e ho2
        exact absurd ho1 (hfree i1 h1)
      · rw [AsyncReader.setSlot_slots_ne _ _ e2] at ho2
        exact h.unique l e i1 h1 i2 h2 ho1 ho2

theorem promote (h : AsyncLive env s) (i : Nat) : AsyncLive env (s.promote i) := by
  unfold AsyncReader.promote
  split
  · exact (h.setSlot (i := i) (x := { s.slots i with speculative := false }) (h.drains i)
      (fun _ _ ho => ho)).of_slots rfl
  · exact h

theorem discard (h : AsyncLive env s) (i : Nat) :
    AsyncLive env (s.setSlot i (s.slots i).discard) :=
  h.setSlot (fun hc => absurd hc (by simp [AsyncSlot.discard]))
    (fun _ _ ho => absurd ho (by simp [AsyncSlot.owns, AsyncSlot.discard]))

theorem scan (h : AsyncLive env s) (r : Nat) : AsyncLive env (s.scan env r) := by
  unfold AsyncReader.scan
  cases hf : s.firstSlot env (fun x => x.claimable s.xlayerPaused) with
  | none => exact h.of_slots rfl
  | some i =>
    have hc := (AsyncInv.firstSlot_spec hf).2
    obtain ⟨hst, hcan, -, -⟩ := (AsyncSlot.claimable_iff).mp hc
    refine (h.setSlot (i := i) (x := (s.slots i).claim r) ?_ ?_).of_slots rfl
    · intro hc
      have hc : (s.slots i).canceled = true := hc
      rw [hcan] at hc
      exact absurd hc (by simp)
    · intro l e ho
      have hne : (s.slots i).state ≠ .empty := by
        obtain hst | hst := hst <;> simp [hst]
      exact (AsyncSlot.owns_iff).mpr ⟨hne, ((AsyncSlot.owns_iff).mp ho).2⟩

/-- A chunk that ends leaves the slot to its owner, or to nobody. -/
theorem complete_owns {x : AsyncSlot} {j : ChunkJob} {ok : Bool} {l e : Nat}
    (h : (x.complete j ok).owns l e = true) (hx : x.state ≠ .empty) : x.owns l e = true := by
  have hkey : (x.complete j ok).layer = x.layer ∧ (x.complete j ok).expert = x.expert := by
    unfold AsyncSlot.complete AsyncSlot.countDone
    dsimp only
    split
    · split <;> exact ⟨rfl, rfl⟩
    · split <;> exact ⟨rfl, rfl⟩
  obtain ⟨-, hl, he⟩ := (AsyncSlot.owns_iff).mp h
  exact (AsyncSlot.owns_iff).mpr ⟨hx, hkey.1.symm.trans hl, hkey.2.symm.trans he⟩

theorem complete (h : AsyncLive env s) (hinv : AsyncInv env s) {r : Nat} {j : ChunkJob}
    (hr : s.readers r = .reading j) (ok : Bool) : AsyncLive env (s.complete r j ok) := by
  have hjob : s.jobsOn j.slot r = some j := by
    unfold AsyncReader.jobsOn
    rw [hr, ReaderThread.jobOn_self]
  have hreading := ((hinv.slot j.slot).job r j hjob).reading
  refine (h.setSlot (i := j.slot) (x := (s.slots j.slot).complete j ok) ?_ ?_).of_slots rfl
  · intro hc
    unfold AsyncSlot.complete AsyncSlot.countDone at hc ⊢
    dsimp only at hc ⊢
    by_cases hcan : (s.slots j.slot).canceled = true
    · have hlt := h.drains j.slot hcan
      rw [if_pos hcan] at hc ⊢
      by_cases hdone : (s.slots j.slot).chunksDone + 1 = (s.slots j.slot).chunksClaimed
      · rw [if_pos hdone] at hc
        exact absurd hc (by simp)
      · rw [if_neg hdone]
        show (s.slots j.slot).chunksDone + 1 < (s.slots j.slot).chunksClaimed
        omega
    · exfalso
      rw [if_neg hcan] at hc
      apply hcan
      split at hc <;> exact hc
  · exact fun l e ho => complete_owns ho (by simp [hreading])

theorem cancelWhere (h : AsyncLive env s) {p : AsyncSlot → Bool}
    (hp : CancelsInFlight env s p) : AsyncLive env (s.cancelWhere env p) := by
  have hslot : ∀ i, (s.cancelWhere env p).slots i =
      if i < env.nSlots ∧ p (s.slots i) then (s.slots i).cancel else s.slots i := fun _ => rfl
  have howns : ∀ i l e, ((s.cancelWhere env p).slots i).owns l e = true →
      (s.slots i).owns l e = true := by
    intro i l e ho
    rw [hslot] at ho
    split at ho
    · obtain ⟨-, hc⟩ | ⟨-, hc⟩ | ⟨-, hc⟩ := (s.slots i).cancel_cases <;> rw [hc] at ho
      · exact absurd rfl ((AsyncSlot.owns_iff).mp ho).1
      · exact (AsyncSlot.owns_iff).mpr ((AsyncSlot.owns_iff).mp ho)
      · exact ho
    · exact ho
  refine ⟨?_, fun l e i1 h1 i2 h2 ho1 ho2 =>
    h.unique l e i1 h1 i2 h2 (howns i1 l e ho1) (howns i2 l e ho2)⟩
  intro i hcan
  rw [hslot] at hcan ⊢
  split at hcan
  · next hi =>
    rw [if_pos hi]
    obtain ⟨-, hc⟩ | ⟨hr, hc⟩ | ⟨-, hc⟩ := (s.slots i).cancel_cases <;> rw [hc] at hcan ⊢
    · exact absurd hcan (by simp [AsyncSlot.discard])
    · exact hp i hi.1 hi.2 hr
    · exact h.drains i hcan
  · next hi =>
    rw [if_neg hi]
    exact h.drains i hcan

theorem submit (h : AsyncLive env s) (q : Submission) : AsyncLive env (s.submit env q) := by
  unfold AsyncReader.submit
  dsimp only
  split
  · exact h
  · cases hf : s.findLocked env q.layer q.expert with
    | some i =>
      dsimp only
      split
      · exact h
      · exact h.promote i
    | none =>
      dsimp only
      split
      · exact h.fill hf
      · exact h.of_slots rfl

theorem resume (h : AsyncLive env s) {k : Nat}
    (hk : ∀ q, s.submissions[k]? = some q → s.findLocked env q.layer q.expert = none) :
    AsyncLive env (s.resume env k) := by
  unfold AsyncReader.resume
  split
  · exact h
  · next q hq =>
    split
    · exact (h.fill (hk q hq)).of_slots rfl
    · exact h

theorem consumeTurn (h : AsyncLive env s) (layer expert : Nat) :
    AsyncLive env (s.consumeTurn env layer expert) := by
  unfold AsyncReader.consumeTurn
  cases hf : s.findLocked env layer expert with
  | none => exact h.of_slots rfl
  | some i =>
    dsimp only
    have ht := h.promote i
    generalize s.promote i = t at ht
    split
    · next hready =>
      refine (ht.setSlot (i := i) (x := (t.slots i).take) ?_ ?_).of_slots rfl
      · exact fun hc => absurd hc (by simp [AsyncSlot.take])
      · exact fun l e ho => (AsyncSlot.owns_iff).mpr
          ⟨by simp [hready], ((AsyncSlot.owns_iff).mp ho).2⟩
    · exact (ht.discard i).of_slots rfl
    · exact ht.of_slots rfl

theorem init : AsyncLive env .init where
  drains := by simp [AsyncReader.init, AsyncSlot.fresh]
  unique := by simp [AsyncReader.init, AsyncSlot.fresh, AsyncSlot.owns]

theorem step (h : AsyncLive env s) (hinv : AsyncInv env s) {a : AsyncAction}
    (ha : AsyncGood env s a) : AsyncLive env (s.step env a) := by
  have hmove := s.moves env a
  generalize s.step env a = t at hmove ⊢
  cases hmove with
  | stays => exact h
  | scan => exact h.scan _
  | @pread r j hr ok left =>
    exact (h.setSlot (i := j.slot) (x := (s.slots j.slot).pread env j ok left) (h.drains _)
      (fun _ _ ho => ho)).of_slots rfl
  | complete hr => exact h.complete hinv hr _
  | readerWakes => exact h.of_slots rfl
  | submit q => exact h.submit q
  | resume k => exact h.resume ha
  | setPaused paused =>
    unfold AsyncReader.setPaused
    dsimp only
    split <;> exact h.of_slots rfl
  | cancelAll =>
    have ha : CancelsInFlight env s (fun _ => true) := ha
    exact h.cancelWhere ha
  | cancelExpert layer expert =>
    unfold AsyncReader.cancelExpert
    split
    · exact h
    · next hlt => exact h.cancelWhere (ha (by omega))
  | cancelLayerMispredicted layer counts => exact h.cancelWhere ha
  | consume layer expert => exact h.consumeTurn layer expert
  | consumerWakes => exact h.of_slots rfl
  | consumerTurn => exact h.consumeTurn _ _
  | upload => exact h.of_slots rfl
  | release => exact (h.discard _).of_slots rfl

end AsyncLive

/-- The three invariants hold in every state of a good run. -/
theorem asyncLive_run {as : List AsyncAction}
    (h : Lib.Guarded (AsyncReader.step env) (AsyncGood env) .init as) :
    (AsyncInv env (as.foldl (AsyncReader.step env) .init) ∧
      AsyncWake env (as.foldl (AsyncReader.step env) .init)) ∧
      AsyncLive env (as.foldl (AsyncReader.step env) .init) := by
  have hstep : ∀ s a, (AsyncInv env s ∧ AsyncWake env s) ∧ AsyncLive env s → AsyncGood env s a →
      (AsyncInv env (s.step env a) ∧ AsyncWake env (s.step env a)) ∧
        AsyncLive env (s.step env a) := by
    rintro s a ⟨⟨hinv, hwake⟩, hlive⟩ ha
    exact ⟨⟨hinv.step a, hwake.step hinv a⟩, hlive.step hinv ha⟩
  apply Lib.Guarded.invariant hstep h
  refine ⟨⟨AsyncInv.init, ?_⟩, AsyncLive.init⟩
  constructor <;> simp [AsyncReader.init, AsyncSlot.fresh]

/-- A reader has a chunk of slot `i`. -/
def InFlight (env : AsyncEnv) (s : AsyncReader) (i : Nat) : Prop :=
  ∃ r < env.nReaders, ∃ j, s.readers r = .reading j ∧ j.slot = i

/-- A reader may claim a chunk of slot `i`. -/
def MayClaim (env : AsyncEnv) (s : AsyncReader) (i : Nat) : Prop :=
  (s.slots i).claimable s.xlayerPaused = true ∧ ∃ r < env.nReaders, s.readers r ≠ .asleep

theorem inFlight_of_lt {s : AsyncReader} (hinv : AsyncInv env s) (hwake : AsyncWake env s) {i : Nat}
    (hne : (s.slots i).state ≠ .empty) (hlt : (s.slots i).chunksDone < (s.slots i).chunksClaimed) :
    InFlight env s i := by
  obtain ⟨r, j, hj⟩ := ((hinv.slot i).live hne).exists_job hlt
  unfold AsyncReader.jobsOn ReaderThread.jobOn at hj
  cases hr : s.readers r with
  | ready | asleep =>
    rw [hr] at hj
    exact absurd hj (by simp)
  | reading job =>
    rw [hr] at hj
    by_cases hslot : job.slot = i
    · exact ⟨r, hwake.bounded r job hr, job, hr, hslot⟩
    · simp [hslot] at hj

/-- The last chunk of a canceled slot gives it back. -/
theorem complete_last {x : AsyncSlot} {j : ChunkJob} {ok : Bool} (hc : x.canceled = true)
    (hlast : x.chunksDone + 1 = x.chunksClaimed) : (x.complete j ok).state = .empty := by
  unfold AsyncSlot.complete AsyncSlot.countDone
  dsimp only
  rw [if_pos hc, if_pos hlast]

/-- **No slot is stranded.** In every state of every run of good actions: a canceled slot has a
    chunk in flight, and the last of them gives it back; a slot that a reader reads into is the one it claimed, still being read; an
    expert owns at most one slot; and the slot that the consumer waits for is being read, or a
    reader may claim a chunk of it. -/
theorem async_reader_never_strands (env : AsyncEnv) (as : List AsyncAction)
    (h : Lib.Guarded (AsyncReader.step env) (AsyncGood env) .init as) :
    let s := as.foldl (AsyncReader.step env) .init
    (∀ i, (s.slots i).canceled = true → InFlight env s i) ∧
    (∀ r j ok, s.readers r = .reading j → j.result = some ok →
      (s.slots j.slot).canceled = true →
      (s.slots j.slot).chunksDone + 1 = (s.slots j.slot).chunksClaimed →
      ((s.step env (.complete r)).slots j.slot).state = .empty) ∧
    (∀ r j, s.readers r = .reading j →
      (s.slots j.slot).state = .reading ∧ (j.chunk, r) ∈ (s.slots j.slot).claims ∧
        j.fd = (s.slots j.slot).fd ∧ j.baseOffset = (s.slots j.slot).offset ∧
        j.bytes = (s.slots j.slot).bytes ∧ j.nsplit = (s.slots j.slot).nsplit) ∧
    (∀ l e, ∀ i < env.nSlots, ∀ i' < env.nSlots, (s.slots i).owns l e = true →
      (s.slots i').owns l e = true → i = i') ∧
    ∀ l e, s.consumer = .waiting l e →
      ∃ i, s.findLocked env l e = some i ∧ (InFlight env s i ∨ MayClaim env s i) := by
  obtain ⟨⟨hinv, hwake⟩, hlive⟩ := asyncLive_run h
  generalize as.foldl (AsyncReader.step env) .init = s at hinv hwake hlive
  refine ⟨?_, ?_, ?_, hlive.unique, ?_⟩
  · intro i hc
    have hreading := (hinv.slot i).canceled_reading hc
    exact inFlight_of_lt hinv hwake (by simp [hreading]) (hlive.drains i hc)
  · intro r j ok hr hres hcan hlast
    have hslots : (s.step env (.complete r)).slots j.slot =
        (s.slots j.slot).complete j ok := by
      have hstep : s.step env (.complete r) = s.complete r j ok := by
        simp only [AsyncReader.step, hr, hres]
      rw [hstep]
      exact AsyncReader.setSlot_slots_self _ _ _
    rw [hslots]
    exact complete_last hcan hlast
  · intro r j hr
    have hjob : s.jobsOn j.slot r = some j := by
      unfold AsyncReader.jobsOn
      rw [hr, ReaderThread.jobOn_self]
    have hj := (hinv.slot j.slot).job r j hjob
    exact ⟨hj.reading, hj.claimed, hj.fd, hj.baseOffset, hj.bytes, hj.nsplit⟩
  · intro l e hc
    obtain ⟨i, hfind, hst, hspec⟩ := hwake.waiting l e hc
    refine ⟨i, hfind, ?_⟩
    have hlt := (AsyncInv.firstSlot_spec hfind).1
    have hslot := (hinv.slot i).live (by rcases hst with hst | hst <;> simp [hst])
    by_cases hdone : (s.slots i).chunksDone < (s.slots i).chunksClaimed
    · exact Or.inl (inFlight_of_lt hinv hwake (by rcases hst with hst | hst <;> simp [hst]) hdone)
    · -- nothing is in flight: the slot is not canceled and has a chunk left to claim
      right
      have hcan : (s.slots i).canceled = false := by
        rw [Bool.eq_false_iff]
        exact fun hc => hdone (hlive.drains i hc)
      have heq : (s.slots i).chunksDone = (s.slots i).chunksClaimed := by
        have := hslot.done_le
        omega
      have hleft : (s.slots i).chunksClaimed < (s.slots i).nsplit := by
        obtain hst | hst := hst
        · rw [hslot.queued hst, hslot.nsplit]
          exact activeIoSplit_pos _ _
        · exact hslot.unfinished hst hcan heq
      have hclaim : (s.slots i).claimable s.xlayerPaused = true :=
        (AsyncSlot.claimable_iff).mpr ⟨hst, hcan, hleft, by rw [hspec, Bool.and_false]⟩
      exact ⟨hclaim, 0, env.readers_pos, hwake.readers ⟨i, hlt, hclaim⟩ 0⟩

/-! ### Runs that strand one -/

/-- A layer whose records are two pages long. -/
def sampleSidecar : Sidecar where
  fd := 0
  expertStride := 32768
  familyOffset := fun _ => 0
  familyBytes := fun _ => 0
  fits := fun _ => Nat.zero_le _

/-- One reader, reads in two chunks. -/
def sampleAsyncEnv : AsyncEnv where
  nSlots := 2
  nReaders := 1
  nExpert := 8
  ioSplit := 2
  bufBytes := 32768
  layer := fun _ => sampleSidecar
  file := fun _ _ => 0
  readers_pos := Nat.one_pos

/-- A canceled read whose second chunk is still to be claimed. -/
def strandingRun : List AsyncAction :=
  [.submit ⟨0, 0, false⟩, .scan 0, .pread 0 true (fun _ => 0), .complete 0, .cancelAll]

/-- Two submissions of one expert that wait for an empty slot. -/
def doublingRun : List AsyncAction :=
  [.submit ⟨0, 0, false⟩, .submit ⟨0, 1, false⟩, .submit ⟨0, 2, false⟩, .submit ⟨0, 2, false⟩,
    .cancelAll, .resume 0, .resume 0]

/-- Between two chunks of a read a cancellation leaves a canceled slot that no reader has, and two
    submissions that have waited leave two slots of one expert. -/
theorem async_reader_strands :
    (((strandingRun.foldl (AsyncReader.step sampleAsyncEnv) .init).slots 0).canceled = true ∧
      ¬ InFlight sampleAsyncEnv (strandingRun.foldl (AsyncReader.step sampleAsyncEnv) .init) 0) ∧
    ((doublingRun.foldl (AsyncReader.step sampleAsyncEnv) .init).slots 0).owns 0 2 = true ∧
      ((doublingRun.foldl (AsyncReader.step sampleAsyncEnv) .init).slots 1).owns 0 2 = true := by
  refine ⟨⟨by decide, ?_⟩, by decide, by decide⟩
  rintro ⟨r, hr, j, hj, -⟩
  obtain rfl : r = 0 := Nat.lt_one_iff.mp hr
  have hready : (strandingRun.foldl (AsyncReader.step sampleAsyncEnv) .init).readers 0 = .ready := by
    decide
  rw [hready] at hj
  exact absurd hj (by simp)

/-- A cancellation while the chunk is in flight. -/
def drainingRun : List AsyncAction :=
  [.submit ⟨0, 0, false⟩, .scan 0, .cancelAll]

theorem drainingRun_good :
    Lib.Guarded (AsyncReader.step sampleAsyncEnv) (AsyncGood sampleAsyncEnv) .init drainingRun := by
  refine ⟨trivial, trivial, ?_, trivial⟩
  intro i hi _
  have hi : i < 2 := hi
  interval_cases i <;> decide

/-- In that run the canceled slot has a chunk in flight. -/
theorem async_reader_drains :
    InFlight sampleAsyncEnv (drainingRun.foldl (AsyncReader.step sampleAsyncEnv) .init) 0 :=
  (async_reader_never_strands sampleAsyncEnv drainingRun drainingRun_good).1 0 (by decide)

end DS4.FlashMoe
