import DS4.FlashMoe.Coherence

namespace DS4.FlashMoe

/-!
# Flash-MoE — coherence of the loads

A load overwrites its slot before the tables are updated, so in between the slot counts as being
loaded (`Bank.Filling`).  A load that succeeds ends with a commit; a load that fails leaves the
tables as they were, and the bank stays sound only under `InstallKeeps`.

* `fillFromFile_spec`, `fillSlot_spec` — what the attempts of a load leave in the slot.
* `install_sound`, `sixSlotLoad_sound` — the synchronous loads.
* `reserveDecodeSlot_sound`, `uploadDecodeSlot_sound`, `prefetchSlotFromBuf_sound`,
  `joinLoad_sound` — the steps of the asynchronous ones.
-/

variable {ρ : Type} {cfg : Config} {sidecar : Nat → ρ} {L : Nat → Prop} {b : Bank ρ}

/-! ### Filling a slot -/

/-- The L1 tables of `b'` are those of `b`. -/
structure Bank.SameTables (b b' : Bank ρ) : Prop where
  slotToExpert : b'.l1.slotToExpert = b.l1.slotToExpert
  expertToSlot : b'.l1.expertToSlot = b.l1.expertToSlot
  slotAge : b'.l1.slotAge = b.l1.slotAge
  expertBank : b'.expertBank = b.expertBank

theorem Bank.SameTables.rfl' (b : Bank ρ) : b.SameTables b := ⟨rfl, rfl, rfl, rfl⟩

/-- A write into a slot leaves the tables alone. -/
theorem Bank.SameTables.setSlot {b' : Bank ρ} (h : b.SameTables b') (slot : Nat) (x : ρ) :
    b.SameTables (b'.setSlot slot x) :=
  ⟨h.slotToExpert, h.expertToSlot, h.slotAge, h.expertBank⟩

/-- A change that leaves L1 alone leaves its tables alone. -/
theorem Bank.SameTables.of_frame {b' b'' : Bank ρ} (h : b.SameTables b') (hl : b''.l1 = b'.l1)
    (he : b''.expertBank = b'.expertBank) : b.SameTables b'' :=
  ⟨hl ▸ h.slotToExpert, hl ▸ h.expertToSlot, hl ▸ h.slotAge, he ▸ h.expertBank⟩

/-- `b'` comes from `b` by writes into one L1 slot and moves between the L2 levels. -/
structure Bank.Filling (cfg : Config) (sidecar : Nat → ρ) (L : Nat → Prop) (slot : Nat)
    (b b' : Bank ρ) : Prop extends b.SameTables b' where
  sound : b'.Sound cfg sidecar (fun t => L t ∨ t = slot)

/-- Nothing written yet. -/
theorem Bank.Filling.start (h : b.Sound cfg sidecar L) (slot : Nat) :
    b.Filling cfg sidecar L slot b :=
  ⟨Bank.SameTables.rfl' b, h.weaken fun _ => Or.inl⟩

/-- Another write into the slot. -/
theorem Bank.Filling.setSlot {slot : Nat} {b' : Bank ρ} (h : b.Filling cfg sidecar L slot b')
    (hid : cfg.identity = false) (x : ρ) : b.Filling cfg sidecar L slot (b'.setSlot slot x) :=
  ⟨h.toSameTables.setSlot slot x, h.sound.setSlot hid (Or.inr rfl) x⟩

/-- A change that leaves L1 alone. -/
theorem Bank.Filling.of_frame {slot : Nat} {b' b'' : Bank ρ}
    (h : b.Filling cfg sidecar L slot b')
    (hs : b''.Sound cfg sidecar (fun t => L t ∨ t = slot)) (hl : b''.l1 = b'.l1)
    (he : b''.expertBank = b'.expertBank) : b.Filling cfg sidecar L slot b'' :=
  ⟨h.toSameTables.of_frame hl he, hs⟩

/-- **A load that gives up.** The bank is sound again if the bytes of the slot fit its name. -/
theorem Bank.Filling.abandon {slot : Nat} {b' : Bank ρ} (h : b.Filling cfg sidecar L slot b')
    (hk : Keeps sidecar (b.l1.slotToExpert slot) (b'.l1.bytes slot)) : b'.Sound cfg sidecar L :=
  { h.sound with l1 := h.sound.l1.settle (h.slotToExpert ▸ hk) }

namespace InstallIo

/-- Where the scratch path gets the bytes from, if anywhere. -/
def scratchSource (io : InstallIo ρ) : Option FillSource :=
  if io.scratchRead && io.upload.done then some .copied else none

/-- Where the attempts that read the file get the bytes from. -/
def fileSource (cfg : Config) (io : InstallIo ρ) : Option FillSource :=
  if cfg.directSlotPread then
    match io.direct with
    | .ok           => some .direct
    | .noPtr true   => none
    | .noPtr false  => io.scratchSource
    | .fail _ true  => none
    | .fail _ false => io.scratchSource
  else io.scratchSource

/-- A load fails when no attempt got the bytes, or a direct read cannot be marked modified. -/
def fails (io : InstallIo ρ) (src : Option FillSource) : Prop :=
  src = none ∨ src = some .direct ∧ io.markModified = false

/-- The file attempts leave bytes that are right for whoever the slot names. -/
structure FileFailureKeeps (cfg : Config) (sidecar : Nat → ρ) (io : InstallIo ρ) (e : Nat)
    (named : Option Nat) : Prop where
  direct : cfg.directSlotPread = true → ∀ x errno, io.direct = .fail x errno →
    Keeps sidecar named x
  unmarked : cfg.directSlotPread = true → io.direct = .ok → Keeps sidecar named (sidecar e)
  upload : io.scratchRead = true → io.upload.FailureKeeps sidecar named

end InstallIo

/-- The scratch path. -/
theorem fillFromScratch_spec (io : InstallIo ρ) {b' : Bank ρ} {e slot : Nat}
    (h : b.Filling cfg sidecar L slot b') (hid : cfg.identity = false) :
    let r := fillFromScratch sidecar io b' e slot
    b.Filling cfg sidecar L slot r.1 ∧ r.2 = io.scratchSource ∧ r.1.gpuL2 = b'.gpuL2 ∧
      (r.2.isSome = true → r.1.l1.bytes slot = sidecar e) ∧
      (∀ named, Keeps sidecar named (b'.l1.bytes slot) →
        (io.scratchRead = true → io.upload.FailureKeeps sidecar named) → r.2 = none →
        Keeps sidecar named (r.1.l1.bytes slot)) := by
  unfold fillFromScratch InstallIo.scratchSource
  cases hr : io.scratchRead with
  | false => exact ⟨h, rfl, rfl, by simp, fun _ hk _ _ => hk⟩
  | true =>
    refine ⟨h.setSlot hid _, rfl, rfl, ?_, ?_⟩
    · cases hu : io.upload with
      | ok => simp [Bank.setSlot]
      | fail x => simp
    · intro named _ hf hn
      cases hu : io.upload with
      | ok => simp [hu] at hn
      | fail x =>
        have := hf rfl x hu
        simpa [Bank.setSlot] using this

/-- The attempts that read the file. -/
theorem fillFromFile_spec (io : InstallIo ρ) {b' : Bank ρ} {e slot : Nat}
    (h : b.Filling cfg sidecar L slot b') (hid : cfg.identity = false) :
    let r := fillFromFile cfg sidecar io b' e slot
    b.Filling cfg sidecar L slot r.1 ∧ r.2 = io.fileSource cfg ∧ r.1.gpuL2 = b'.gpuL2 ∧
      (r.2.isSome = true → r.1.l1.bytes slot = sidecar e) ∧
      (∀ named, Keeps sidecar named (b'.l1.bytes slot) →
        io.FileFailureKeeps cfg sidecar e named → io.fails r.2 →
        Keeps sidecar named (r.1.l1.bytes slot)) := by
  have scratch : ∀ {b₁ : Bank ρ}, b.Filling cfg sidecar L slot b₁ → b₁.gpuL2 = b'.gpuL2 →
      (∀ named, Keeps sidecar named (b'.l1.bytes slot) →
        io.FileFailureKeeps cfg sidecar e named → Keeps sidecar named (b₁.l1.bytes slot)) →
      let r := fillFromScratch sidecar io b₁ e slot
      b.Filling cfg sidecar L slot r.1 ∧ r.2 = io.scratchSource ∧ r.1.gpuL2 = b'.gpuL2 ∧
        (r.2.isSome = true → r.1.l1.bytes slot = sidecar e) ∧
        (∀ named, Keeps sidecar named (b'.l1.bytes slot) →
          io.FileFailureKeeps cfg sidecar e named → io.fails r.2 →
          Keeps sidecar named (r.1.l1.bytes slot)) := by
    intro b₁ h₁ hg hk₁
    obtain ⟨hf, hs, hg', hb, hk⟩ := fillFromScratch_spec (e := e) io h₁ hid
    refine ⟨hf, hs, hg'.trans hg, hb, ?_⟩
    rintro named hn hc (hnone | ⟨hdir, -⟩)
    · exact hk named (hk₁ named hn hc) hc.upload hnone
    · rw [hs] at hdir
      unfold InstallIo.scratchSource at hdir
      split at hdir <;> cases hdir
  unfold fillFromFile InstallIo.fileSource
  split
  · rename_i hd
    cases hdir : io.direct with
    | ok =>
      refine ⟨h.setSlot hid _, rfl, rfl, ?_, ?_⟩
      · simp [Bank.setSlot]
      · intro named _ hc _
        simpa [Bank.setSlot] using hc.unmarked hd hdir
    | noPtr errno =>
      cases errno with
      | true => exact ⟨h, rfl, rfl, by simp, fun _ hk _ _ => hk⟩
      | false => exact scratch h rfl (fun _ hk _ => hk)
    | fail x errno =>
      cases errno with
      | true =>
        refine ⟨h.setSlot hid _, rfl, rfl, by simp, ?_⟩
        intro named _ hc _
        simpa [Bank.setSlot] using hc.direct hd x true hdir
      | false =>
        refine scratch (h.setSlot hid x) rfl ?_
        intro named _ hc
        simpa [Bank.setSlot] using hc.direct hd x false hdir
  · exact scratch h rfl (fun _ hk _ => hk)

/-- The file attempts leave the tables alone, and get the bytes where `fileSource` says. -/
theorem fillFromFile_frame (cfg : Config) (sidecar : Nat → ρ) (io : InstallIo ρ) (b : Bank ρ)
    (e slot : Nat) :
    b.SameTables (fillFromFile cfg sidecar io b e slot).1 ∧
      (fillFromFile cfg sidecar io b e slot).2 = io.fileSource cfg := by
  have scratch : ∀ {b₁ : Bank ρ}, b.SameTables b₁ →
      b.SameTables (fillFromScratch sidecar io b₁ e slot).1 ∧
        (fillFromScratch sidecar io b₁ e slot).2 = io.scratchSource := by
    intro b₁ h₁
    unfold fillFromScratch InstallIo.scratchSource
    cases io.scratchRead with
    | false => exact ⟨h₁, rfl⟩
    | true => exact ⟨h₁.setSlot slot _, rfl⟩
  have hrfl := Bank.SameTables.rfl' b
  unfold fillFromFile InstallIo.fileSource
  split
  · cases io.direct with
    | ok => exact ⟨hrfl.setSlot slot _, rfl⟩
    | noPtr errno =>
      cases errno with
      | true => exact ⟨hrfl, rfl⟩
      | false => exact scratch hrfl
    | fail x errno =>
      cases errno with
      | true => exact ⟨hrfl.setSlot slot x, rfl⟩
      | false => exact scratch (hrfl.setSlot slot x)
  · exact scratch hrfl

/-! ### `metal_graph_flash_moe_install` -/

/-- The bank at the CPU L2 lookup of an install: promotion tried, evicted record captured. -/
def installCaptured (cfg : Config) (io : InstallIo ρ) (b : Bank ρ) (e slot : Nat) : Bank ρ :=
  l2StoreL1Slot cfg io.l2StorePtr (gpuL2PromoteToL1 cfg io.promote b e slot).1
    (b.l1.slotToExpert slot) slot

/-- Where an install gets the bytes from. -/
def installSource (cfg : Config) (io : InstallIo ρ) (b : Bank ρ) (e slot : Nat) :
    Option FillSource :=
  if (gpuL2PromoteToL1 cfg io.promote b e slot).2 then some .gpuL2
  else if (l2Lookup cfg (installCaptured cfg io b e slot) e).2.isSome && io.l2Upload.done then
    some .copied
  else io.fileSource cfg

/-- The attempts after the capture. -/
theorem fillSlot_eq (cfg : Config) (sidecar : Nat → ρ) (io : InstallIo ρ) (b : Bank ρ)
    (e slot : Nat) :
    fillSlot cfg sidecar io b e slot (b.l1.slotToExpert slot) =
      if (gpuL2PromoteToL1 cfg io.promote b e slot).2 then
        (installCaptured cfg io b e slot, some .gpuL2)
      else
        let found := l2Lookup cfg (installCaptured cfg io b e slot) e
        match found.2 with
        | some x =>
          let b₃ := found.1.setSlot slot (io.l2Upload.result x)
          if io.l2Upload.done then (b₃, some .copied)
          else fillFromFile cfg sidecar io b₃ e slot
        | none => fillFromFile cfg sidecar io found.1 e slot := rfl

/-- **When an install is harmless.** The captured bytes are the evicted record; a load that
    fails leaves bytes that fit the victim's name; and so does a failed GPU L2 store. -/
structure InstallKeeps (cfg : Config) (sidecar : Nat → ρ) (io : InstallIo ρ) (b : Bank ρ)
    (e slot : Nat) : Prop where
  capture : ∀ t, b.promotable cfg e = some t → cfg.mixedSlotBank = true →
    io.l2StorePtr = true → cfg.l2SlotBank ≠ 0 →
    Keeps sidecar (b.l1.slotToExpert slot) (io.promote.result (b.gpuL2.bytes t))
  promote : io.fails (installSource cfg io b e slot) → (b.promotable cfg e).isSome = true →
    io.promote.FailureKeeps sidecar (b.l1.slotToExpert slot)
  l2Upload : io.fails (installSource cfg io b e slot) → cfg.l2SlotBank ≠ 0 →
    io.l2Upload.FailureKeeps sidecar (b.l1.slotToExpert slot)
  file : io.fails (installSource cfg io b e slot) →
    io.FileFailureKeeps cfg sidecar e (b.l1.slotToExpert slot)
  store : ∀ src, installSource cfg io b e slot = some src → src ≠ .gpuL2 →
    GpuL2StoreKeeps cfg sidecar io.gpuL2Store b.gpuL2 e

/-- **All attempts.** -/
theorem fillSlot_spec (io : InstallIo ρ) {e slot : Nat} (h : b.Sound cfg sidecar L)
    (hL : ¬ L slot) (hid : cfg.identity = false) (hs : slot < cfg.slotBank)
    (hk : InstallKeeps cfg sidecar io b e slot) :
    let r := fillSlot cfg sidecar io b e slot (b.l1.slotToExpert slot)
    b.Filling cfg sidecar L slot r.1 ∧ r.2 = installSource cfg io b e slot ∧
      (r.2 ≠ some .gpuL2 → r.1.gpuL2 = b.gpuL2) ∧
      (r.2.isSome = true → r.1.l1.bytes slot = sidecar e) ∧
      (io.fails r.2 → Keeps sidecar (b.l1.slotToExpert slot) (r.1.l1.bytes slot)) := by
  have hname : Keeps sidecar (b.l1.slotToExpert slot) (b.l1.bytes slot) := h.l1 slot hL
  -- after the promotion the slot has its old bytes, the record, or what the copy left
  set p := gpuL2PromoteToL1 cfg io.promote b e slot with hp
  have hpspec := gpuL2PromoteToL1_spec cfg io.promote b e hs
  rw [← hp] at hpspec
  have hfill : b.Filling cfg sidecar L slot p.1 := by
    rcases hpspec with ⟨-, hr⟩ | ⟨t, -, -, hl, h2, hgs, hgb, -, he⟩
    · rw [hr]
      exact Bank.Filling.start h slot
    · refine ⟨⟨?_, ?_, ?_, he⟩, ?_, h2 ▸ h.l2, h.gpuL2.congr hgs hgb, fun hi => ?_⟩
      iterate 3 rw [hl]; rfl
      · rw [hl]
        have hw : b.l1.Sound sidecar (fun t => L t ∨ t = slot) := h.l1.weaken fun _ => Or.inl
        exact hw.setBytes (s := slot) (Or.inr rfl) _
      · rw [hid] at hi
        cases hi
  have hcap : cfg.mixedSlotBank = true → io.l2StorePtr = true → cfg.l2SlotBank ≠ 0 →
      Keeps sidecar (b.l1.slotToExpert slot) (p.1.l1.bytes slot) := by
    intro hm hptr hz
    rcases hpspec with ⟨-, hr⟩ | ⟨t, ht, -, hl, -⟩
    · rw [hr]
      exact hname
    · rw [hl]
      simpa using hk.capture t ht hm hptr hz
  have hcs : (installCaptured cfg io b e slot).Sound cfg sidecar (fun t => L t ∨ t = slot) :=
    l2StoreL1Slot_sound hfill.sound hcap
  have hcl : (installCaptured cfg io b e slot).l1 = p.1.l1 ∧
      (installCaptured cfg io b e slot).gpuL2 = p.1.gpuL2 ∧
      (installCaptured cfg io b e slot).expertBank = p.1.expertBank :=
    l2StoreL1Slot_frame cfg _ p.1 _ slot
  have hcf : b.Filling cfg sidecar L slot (installCaptured cfg io b e slot) :=
    hfill.of_frame hcs hcl.1 hcl.2.2
  have hkp := hk.promote
  have hkl := hk.l2Upload
  have hkf := hk.file
  unfold installSource at hkp hkl hkf
  unfold installSource
  rw [fillSlot_eq]
  rw [← hp] at hkp hkl hkf ⊢
  by_cases hdone : p.2 = true
  · -- promoted
    simp only [if_pos hdone]
    refine ⟨hcf, trivial, by simp, fun _ => ?_, ?_⟩
    · rcases hpspec with ⟨-, hr⟩ | ⟨t, ht, hd, hl, -⟩
      · rw [hr] at hdone
        cases hdone
      · rw [hcl.1, hl]
        rw [hd] at hdone
        cases hw : io.promote with
        | ok => simpa using promotable_bytes h ht
        | fail x =>
          rw [hw] at hdone
          cases hdone
    · rintro (hn | ⟨hn, -⟩) <;> cases hn
  · simp only [if_neg hdone] at hkp hkl hkf ⊢
    have hgp : p.1.gpuL2 = b.gpuL2 := by
      rcases hpspec with ⟨-, hr⟩ | ⟨t, -, hd, -, -, -, -, hg, -⟩
      · rw [hr]
      · exact hg (by rw [← hd]; simpa using hdone)
    -- what a failed load finds in the slot after the promotion
    have hold : io.fails
        (if (l2Lookup cfg (installCaptured cfg io b e slot) e).2.isSome && io.l2Upload.done then
          some .copied else io.fileSource cfg) →
        Keeps sidecar (b.l1.slotToExpert slot) (p.1.l1.bytes slot) := by
      intro hf
      rcases hpspec with ⟨-, hr⟩ | ⟨t, ht, hd, hl, -⟩
      · rw [hr]
        exact hname
      · rw [hl]
        cases hw : io.promote with
        | ok =>
          rw [hd, hw] at hdone
          exact absurd rfl hdone
        | fail x => simpa using hkp hf (by simp [ht]) x hw
    have hls := l2Lookup_sound hcs e
    have hlf := l2Lookup_frame cfg (installCaptured cfg io b e slot) e
    have hlfill : b.Filling cfg sidecar L slot
        (l2Lookup cfg (installCaptured cfg io b e slot) e).1 :=
      hcf.of_frame hls hlf.1 hlf.2.2
    cases hfound : (l2Lookup cfg (installCaptured cfg io b e slot) e).2 with
    | none =>
      rw [hfound] at hold hkf
      simp only [Option.isSome_none, Bool.false_and, Bool.false_eq_true, if_false] at hold hkf ⊢
      obtain ⟨hf, hsrc, hg, hb, hkk⟩ := fillFromFile_spec (e := e) io hlfill hid
      refine ⟨hf, hsrc, fun _ => (hg.trans (hlf.2.1.trans hcl.2.1)).trans hgp, hb, ?_⟩
      intro hfail
      refine hkk _ ?_ (hkf (hsrc ▸ hfail)) hfail
      rw [hlf.1, hcl.1]
      exact hold (hsrc ▸ hfail)
    | some x =>
      rw [hfound] at hold hkf hkl
      have hx : x = sidecar e := l2Lookup_bytes hcs hfound
      have hup := hlfill.setSlot hid (io.l2Upload.result x)
      cases hw : io.l2Upload with
      | ok =>
        rw [hw] at hup
        refine ⟨hup, rfl, fun _ => (hlf.2.1.trans hcl.2.1).trans hgp, fun _ => ?_, ?_⟩
        · simpa [Bank.setSlot] using hx
        · rintro (hn | ⟨hn, -⟩) <;> cases hn
      | fail y =>
        rw [hw] at hup hkf hkl
        simp only [Write.done_fail, Bool.and_false, Bool.false_eq_true, if_false] at hkf hkl ⊢
        have hz : cfg.l2SlotBank ≠ 0 := by
          intro hz
          simp [l2Lookup, hz] at hfound
        obtain ⟨hf, hsrc, hg, hb, hkk⟩ := fillFromFile_spec (e := e) io hup hid
        refine ⟨hf, hsrc, fun _ => (hg.trans (hlf.2.1.trans hcl.2.1)).trans hgp, hb, ?_⟩
        intro hfail
        refine hkk _ ?_ (hkf (hsrc ▸ hfail)) hfail
        simpa [Bank.setSlot] using hkl (hsrc ▸ hfail) hz y rfl

/-- All attempts leave the L1 tables alone, and get the bytes where `installSource` says. -/
theorem fillSlot_frame (cfg : Config) (sidecar : Nat → ρ) (io : InstallIo ρ) (b : Bank ρ)
    {e slot : Nat} (hs : slot < cfg.slotBank) :
    b.SameTables (fillSlot cfg sidecar io b e slot (b.l1.slotToExpert slot)).1 ∧
      (fillSlot cfg sidecar io b e slot (b.l1.slotToExpert slot)).2 =
        installSource cfg io b e slot := by
  have hp : b.SameTables (gpuL2PromoteToL1 cfg io.promote b e slot).1 := by
    rcases gpuL2PromoteToL1_spec cfg io.promote b e hs with ⟨-, hr⟩ | ⟨t, -, -, hl, -, -, -, -, he⟩
    · rw [hr]
      exact Bank.SameTables.rfl' b
    · refine ⟨?_, ?_, ?_, he⟩ <;> rw [hl] <;> rfl
  have hcl := l2StoreL1Slot_frame cfg io.l2StorePtr (gpuL2PromoteToL1 cfg io.promote b e slot).1
    (b.l1.slotToExpert slot) slot
  have hc : b.SameTables (installCaptured cfg io b e slot) := hp.of_frame hcl.1 hcl.2.2
  have hlf := l2Lookup_frame cfg (installCaptured cfg io b e slot) e
  have hl : b.SameTables (l2Lookup cfg (installCaptured cfg io b e slot) e).1 :=
    hc.of_frame hlf.1 hlf.2.2
  have trans : ∀ {b₁ b₂ : Bank ρ}, b.SameTables b₁ → b₁.SameTables b₂ → b.SameTables b₂ :=
    fun h h' => ⟨h'.1.trans h.1, h'.2.trans h.2, h'.3.trans h.3, h'.4.trans h.4⟩
  rw [fillSlot_eq]
  unfold installSource
  split
  · exact ⟨hc, rfl⟩
  · dsimp only
    cases hf : (l2Lookup cfg (installCaptured cfg io b e slot) e).2 with
    | none =>
      have := fillFromFile_frame cfg sidecar io
        (l2Lookup cfg (installCaptured cfg io b e slot) e).1 e slot
      exact ⟨trans hl this.1, this.2⟩
    | some x =>
      dsimp only
      cases io.l2Upload with
      | ok => exact ⟨hl.setSlot slot _, rfl⟩
      | fail y =>
        have := fillFromFile_frame cfg sidecar io
          ((l2Lookup cfg (installCaptured cfg io b e slot) e).1.setSlot slot y) e slot
        exact ⟨trans (hl.setSlot slot y) this.1, this.2⟩

/-- **The miss branch of an install.** -/
theorem installMiss_sound (io : InstallIo ρ) {e slot : Nat} (h : b.Sound cfg sidecar L)
    (hL : ¬ L slot) (hid : cfg.identity = false) (hs : slot < cfg.slotBank)
    (hk : InstallKeeps cfg sidecar io b e slot) :
    (installMiss cfg sidecar io b e slot).1.Sound cfg sidecar L := by
  obtain ⟨hfill, hsrc, hg, hb, hfail⟩ := fillSlot_spec io h hL hid hs hk
  unfold installMiss
  dsimp only
  cases hr : (fillSlot cfg sidecar io b e slot (b.l1.slotToExpert slot)).2 with
  | none =>
    rw [hr] at hfail
    exact hfill.abandon (hfail (Or.inl rfl))
  | some src =>
    rw [hr] at hsrc hb hfail hg
    set b₁ := (fillSlot cfg sidecar io b e slot (b.l1.slotToExpert slot)).1 with hb₁
    dsimp only
    set b₂ := (if src = .gpuL2 then b₁ else gpuL2StoreL1Slot cfg io.gpuL2Store b₁ e slot)
      with hb₂
    have h₂l1 : b₂.l1 = b₁.l1 := by
      rw [hb₂]
      split
      · rfl
      · exact (gpuL2StoreL1Slot_frame cfg _ b₁ e slot).1
    have h₂s : b₂.Sound cfg sidecar (fun t => L t ∨ t = slot) := by
      rw [hb₂]
      by_cases hsg : src = .gpuL2
      · rw [if_pos hsg]
        exact hfill.sound
      · rw [if_neg hsg]
        refine gpuL2StoreL1Slot_sound hfill.sound (hb rfl) ?_
        rw [hg (by simpa using hsg)]
        exact hk.store src hsrc.symm hsg
    by_cases hm : src = .direct ∧ io.markModified = false
    · rw [if_pos hm]
      refine { h₂s with l1 := h₂s.l1.settle ?_ }
      rw [h₂l1, hfill.slotToExpert]
      exact hfail (Or.inr ⟨by rw [hm.1], hm.2⟩)
    · rw [if_neg hm]
      refine ⟨?_, h₂s.l2, h₂s.gpuL2, fun hi => ?_⟩
      · exact h₂s.l1.record_of_bytes (e := e) (by rw [h₂l1]; exact hb rfl) (by simp) (by simp)
      · rw [hid] at hi
        cases hi

/-! ### Loads that succeed -/

/-- All reads and uploads of the load succeed; without a slot pointer the direct read is passed
    over. -/
structure InstallIo.Succeeds (io : InstallIo ρ) : Prop where
  direct : io.direct = .ok ∨ io.direct = .noPtr false
  scratchRead : io.scratchRead = true
  upload : io.upload = .ok
  markModified : io.markModified = true

/-- Then the file attempts get the bytes. -/
theorem InstallIo.Succeeds.fileSource {io : InstallIo ρ} (h : io.Succeeds) (cfg : Config) :
    ∃ src, io.fileSource cfg = some src := by
  have hs : io.scratchSource = some .copied := by
    simp [InstallIo.scratchSource, h.scratchRead, h.upload]
  unfold InstallIo.fileSource
  split
  · rcases h.direct with hd | hd <;> rw [hd]
    · exact ⟨_, rfl⟩
    · exact ⟨_, hs⟩
  · exact ⟨_, hs⟩

/-- Then an install gets the bytes. -/
theorem InstallIo.Succeeds.installSource {io : InstallIo ρ} (h : io.Succeeds) (cfg : Config)
    (b : Bank ρ) (e slot : Nat) : ∃ src, installSource cfg io b e slot = some src := by
  unfold FlashMoe.installSource
  split
  · exact ⟨_, rfl⟩
  · split
    · exact ⟨_, rfl⟩
    · exact h.fileSource cfg

/-- A load that got the bytes does not fail. -/
theorem InstallIo.Succeeds.not_fails {io : InstallIo ρ} (h : io.Succeeds)
    {src : Option FillSource} (hs : ∃ x, src = some x) : ¬ io.fails src := by
  obtain ⟨x, rfl⟩ := hs
  rintro (hn | ⟨-, hm⟩)
  · cases hn
  · rw [h.markModified] at hm
    cases hm

/-- An install that succeeds is harmless when only one L2 is in use and its copies succeed. -/
theorem InstallIo.Succeeds.installKeeps {io : InstallIo ρ} (h : io.Succeeds)
    (hl2 : cfg.gpuL2SlotBank = 0 ∨ cfg.l2SlotBank = 0 ∧ io.gpuL2Store = .ok) (b : Bank ρ)
    (e slot : Nat) : InstallKeeps cfg sidecar io b e slot where
  capture t ht _ _ hz := by
    rcases hl2 with hg | ⟨hl, -⟩
    · simp [Bank.promotable, hg] at ht
    · exact absurd hl hz
  promote hf := absurd hf (h.not_fails (h.installSource cfg b e slot))
  l2Upload hf := absurd hf (h.not_fails (h.installSource cfg b e slot))
  file hf := absurd hf (h.not_fails (h.installSource cfg b e slot))
  store _ _ _ hz x hx := by
    rcases hl2 with hg | ⟨-, hok⟩
    · exact absurd hg hz
    · rw [hok] at hx
      cases hx

/-! ### Install and six-slot baseline -/

/-- The victim of an install that misses. -/
def installVictim (cfg : Config) (b : Bank ρ) (e : Nat) (protectedExperts : Nat → Bool) :
    Option Nat :=
  if e < cfg.nExpert ∧ cfg.identity = false ∧ b.l1.lookup cfg.slotBank e = none then
    pickSlot cfg b.l1 protectedExperts (fun _ => false)
  else none

/-- **What an install can do.** -/
theorem install_cases (cfg : Config) (sidecar : Nat → ρ) (io : InstallIo ρ) (b : Bank ρ)
    (e : Nat) (prot : Nat → Bool) :
    let r := install cfg sidecar io b e prot
    r = (b, none) ∨
      (e < cfg.nExpert ∧ cfg.identity = true ∧ b.Backed cfg e ∧
        r = (b.identitySlot e, some e)) ∨
      (e < cfg.nExpert ∧ cfg.identity = false ∧
        ∃ s, b.l1.lookup cfg.slotBank e = some s ∧ r = (b.touch s, some s)) ∨
      (∃ s, installVictim cfg b e prot = some s ∧ r = installMiss cfg sidecar io b e s) := by
  unfold install installVictim Config.identity Bank.Backed
  by_cases he : e < cfg.nExpert
  swap
  · exact Or.inl (by rw [if_pos he])
  rw [if_neg (not_not_intro he)]
  cases hd : cfg.directMmapBank with
  | true =>
    by_cases hs : e < cfg.slotBank
    · exact Or.inr (Or.inl ⟨he, by simp, ⟨hs, Or.inl rfl⟩, by simp [hs]⟩)
    · exact Or.inl (by simp [hs])
  | false =>
    cases hp : cfg.perExpertBuffers with
    | true =>
      by_cases hs : e < cfg.slotBank ∧ b.expertBank e = true
      · exact Or.inr (Or.inl ⟨he, by simp, ⟨hs.1, Or.inr hs.2⟩, by simp [hs]⟩)
      · exact Or.inl (by simp [hs])
    | false =>
      cases hl : b.l1.lookup cfg.slotBank e with
      | some s => exact Or.inr (Or.inr (Or.inl ⟨he, by simp, s, rfl, by simp⟩))
      | none =>
        cases hv : pickSlot cfg b.l1 prot (fun _ => false) with
        | none => exact Or.inl (by simp)
        | some s => exact Or.inr (Or.inr (Or.inr ⟨s, by simp [he], by simp⟩))

/-- A victim is a slot of the bank, and only the movable layouts have one. -/
theorem installVictim_spec {e s : Nat} {prot : Nat → Bool}
    (h : installVictim cfg b e prot = some s) :
    s < cfg.slotBank ∧ cfg.identity = false ∧ e < cfg.nExpert ∧
      b.l1.lookup cfg.slotBank e = none := by
  unfold installVictim at h
  split at h
  · rename_i hc
    exact ⟨(pickSlot_eq_some h).1, hc.2.1, hc.1, hc.2.2⟩
  · cases h

/-- **Install.** -/
theorem install_sound (io : InstallIo ρ) {e : Nat} {prot : Nat → Bool}
    (h : b.Sound cfg sidecar fun _ => False)
    (hk : ∀ s, installVictim cfg b e prot = some s → InstallKeeps cfg sidecar io b e s) :
    (install cfg sidecar io b e prot).1.Sound cfg sidecar fun _ => False := by
  rcases install_cases cfg sidecar io b e prot with hr | ⟨-, hi, hb, hr⟩ | ⟨-, -, s, -, hr⟩ |
    ⟨s, hv, hr⟩
  · rw [hr]
    exact h
  · rw [hr]
    exact h.identitySlot hi hb
  · rw [hr]
    exact h.touch s
  · rw [hr]
    obtain ⟨hs, hid, -, -⟩ := installVictim_spec hv
    exact installMiss_sound io h (fun hn => hn) hid hs (hk s hv)

/-- **Six-slot baseline.** -/
theorem sixSlotLoad_sound (io : InstallIo ρ) {e k : Nat}
    (h : b.Sound cfg sidecar fun _ => False) (hid : cfg.identity = false)
    (hk : io.fails (io.fileSource cfg) →
      io.FileFailureKeeps cfg sidecar e (b.l1.slotToExpert k)) :
    (sixSlotLoad cfg sidecar io b e k).1.Sound cfg sidecar fun _ => False := by
  unfold sixSlotLoad
  by_cases he : e < cfg.nExpert
  swap
  · rw [if_pos he]
    exact h
  rw [if_neg (not_not_intro he)]
  obtain ⟨hfill, hsrc, -, hb, hfail⟩ :=
    fillFromFile_spec (e := e) io (Bank.Filling.start h k) hid
  dsimp only
  have hname := h.l1 k (fun hn => hn)
  cases hr : (fillFromFile cfg sidecar io b e k).2 with
  | none =>
    rw [hr] at hsrc hfail
    exact hfill.abandon (hfail _ hname (hk (Or.inl hsrc.symm)) (Or.inl rfl))
  | some src =>
    rw [hr] at hsrc hfail hb
    dsimp only
    by_cases hm : src = .direct ∧ io.markModified = false
    · rw [if_pos hm]
      have hf : io.fails (some src) := Or.inr ⟨by rw [hm.1], hm.2⟩
      exact hfill.abandon (hfail _ hname (hk (hsrc ▸ hf)) hf)
    · rw [if_neg hm]
      refine Bank.Sound.commitDecodeSlot ?_ ?_ _
      · exact hfill.sound.congr_l1 (by simp) (by simp) rfl rfl rfl
      · simpa using hb rfl

end DS4.FlashMoe
