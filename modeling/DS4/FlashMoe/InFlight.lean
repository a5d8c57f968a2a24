import DS4.FlashMoe.Loads

namespace DS4.FlashMoe

/-!
# Flash-MoE — loads in flight

Between the start of an asynchronous load and its join the tables still name the evicted expert,
while a direct read is already overwriting the slot.  `LoadsSound` is the invariant of that
window: the bank is sound outside the slots of the direct loads, the slots are distinct, and a
completed read has left the record it was asked for.

* `LoadsSound.push` — a load is started.
* `LoadsSound.drop`, `joinLoad_loadsSound` — a load is joined.
* `LoadsSound.abandon` — the loads are given up.
* `prefetchRoutes_sound`, `asyncHandout_sound` — the two paths that start loads.
-/

variable {ρ : Type} {cfg : Config} {sidecar : Nat → ρ} {L : Nat → Prop} {b : Bank ρ}
  {loads : List (Load ρ)} {seq : Bool}

/-! ### Reservations and uploads -/

/-- **What a reservation can do.** -/
theorem reserveDecodeSlot_cases (cfg : Config) (b : Bank ρ) (e : Nat) (prot res : Nat → Bool) :
    let r := reserveDecodeSlot cfg b e prot res
    r = (b, none) ∨
      (e < cfg.nExpert ∧ cfg.identity = true ∧ b.Backed cfg e ∧ res e = false ∧
        r = (b.identitySlot e, some ⟨e, none, false⟩)) ∨
      (e < cfg.nExpert ∧ cfg.identity = false ∧
        ∃ s, b.l1.lookup cfg.slotBank e = some s ∧ res s = false ∧
          r = (b.touch s, some ⟨s, none, false⟩)) ∨
      (e < cfg.nExpert ∧ cfg.identity = false ∧
        ∃ s, pickSlot cfg b.l1 prot res = some s ∧
          r = (b, some ⟨s, b.l1.slotToExpert s, true⟩)) := by
  unfold reserveDecodeSlot Config.identity Bank.Backed
  by_cases he : e < cfg.nExpert
  swap
  · exact Or.inl (by rw [if_pos he])
  rw [if_neg (not_not_intro he)]
  cases hd : cfg.directMmapBank with
  | true =>
    by_cases hs : e < cfg.slotBank ∧ res e = false
    · exact Or.inr (Or.inl ⟨he, by simp, ⟨hs.1, Or.inl rfl⟩, hs.2, by simp [hs]⟩)
    · exact Or.inl (by simp [hs])
  | false =>
    cases hp : cfg.perExpertBuffers with
    | true =>
      by_cases hs : e < cfg.slotBank ∧ b.expertBank e = true ∧ res e = false
      · exact Or.inr (Or.inl ⟨he, by simp, ⟨hs.1, Or.inr hs.2.1⟩, hs.2.2, by simp [hs]⟩)
      · exact Or.inl (by simp [hs])
    | false =>
      cases hl : (b.l1.lookup cfg.slotBank e).filter (fun s => !res s) with
      | some s =>
        obtain ⟨hs, hres⟩ := Option.filter_eq_some_iff.mp hl
        exact Or.inr (Or.inr (Or.inl ⟨he, by simp, s, hs, by simpa using hres, by simp⟩))
      | none =>
        cases hv : pickSlot cfg b.l1 prot res with
        | none => exact Or.inl (by simp)
        | some s => exact Or.inr (Or.inr (Or.inr ⟨he, by simp, s, rfl, by simp⟩))

/-- A reservation keeps the bank sound. -/
theorem reserveDecodeSlot_sound (h : b.Sound cfg sidecar L) (e : Nat) (prot res : Nat → Bool) :
    (reserveDecodeSlot cfg b e prot res).1.Sound cfg sidecar L := by
  rcases reserveDecodeSlot_cases cfg b e prot res with hr | ⟨-, hi, hb, -, hr⟩ |
    ⟨-, -, s, -, -, hr⟩ | ⟨-, -, s, -, hr⟩ <;> rw [hr]
  · exact h
  · exact h.identitySlot hi hb
  · exact h.touch s
  · exact h

/-- **Upload.** A failed upload invalidates the slot, so the bank is sound either way. -/
theorem uploadDecodeSlot_sound (io : LoadIo ρ) {e : Nat} (slot : Nat) (ev : Option Nat) {x : ρ}
    (h : b.Sound cfg sidecar L) (hid : cfg.identity = false) (hx : x = sidecar e)
    (hk : io.upload.done = true → GpuL2StoreKeeps cfg sidecar io.gpuL2Store b.gpuL2 e) :
    (uploadDecodeSlot cfg io b e slot ev x).1.Sound cfg sidecar L := by
  unfold uploadDecodeSlot
  split
  · rename_i hc
    have hw : b.Sound cfg sidecar (fun t => L t ∨ t = slot) := h.weaken fun _ => Or.inl
    have hset := hw.setSlot hid (s := slot) (Or.inr rfl) (io.upload.result x)
    cases hu : io.upload with
    | ok =>
      rw [hu] at hset hk
      have hbytes : (b.setSlot slot (Write.result x .ok)).l1.bytes slot = sidecar e := by
        simpa [Bank.setSlot] using hx
      refine Bank.Sound.commitDecodeSlot ?_ ?_ ev
      · exact gpuL2StoreL1Slot_sound hset hbytes (hk rfl)
      · rw [(gpuL2StoreL1Slot_frame ..).1]
        exact hbytes
    | fail y =>
      rw [hu] at hset
      exact hset.invalidateDecodeSlot hc.2
  · exact h

/-- An upload leaves the other slots alone. -/
theorem uploadDecodeSlot_frame (cfg : Config) (io : LoadIo ρ) (b : Bank ρ) (e : Nat) {slot : Nat}
    (ev : Option Nat) (x : ρ) {s : Nat} (hs : s ≠ slot) :
    (uploadDecodeSlot cfg io b e slot ev x).1.l1.slotToExpert s = b.l1.slotToExpert s ∧
      (uploadDecodeSlot cfg io b e slot ev x).1.l1.bytes s = b.l1.bytes s := by
  unfold uploadDecodeSlot
  split
  · dsimp only
    split
    · simp [Bank.commitDecodeSlot, (gpuL2StoreL1Slot_frame ..).1, Bank.setSlot,
        Function.update_of_ne hs]
    · simp only [Bank.invalidateDecodeSlot]
      split <;> simp [Bank.setSlot, Function.update_of_ne hs]
  · exact ⟨rfl, rfl⟩

/-- A failed upload leaves the slot without a name, or did nothing. -/
theorem uploadDecodeSlot_failed (io : LoadIo ρ) (b : Bank ρ) {e slot : Nat} (ev : Option Nat)
    (x : ρ) (hf : (uploadDecodeSlot cfg io b e slot ev x).2 = false) {a : Nat}
    (ha : (uploadDecodeSlot cfg io b e slot ev x).1.l1.slotToExpert slot = some a) :
    b.l1.slotToExpert slot = some a := by
  unfold uploadDecodeSlot at hf ha
  split at ha
  · rename_i hc
    rw [if_pos hc] at hf
    dsimp only at hf ha
    split at ha
    · rename_i hu
      rw [if_pos hu] at hf
      cases hf
    · rw [Bank.invalidateDecodeSlot, if_pos hc.2] at ha
      simp at ha
  · exact ha

/-- **Prefill prefetch.** -/
theorem prefetchSlotFromBuf_sound (upload : Write ρ) (h : b.Sound cfg sidecar L) (e : Nat) :
    (prefetchSlotFromBuf cfg sidecar upload b e).1.Sound cfg sidecar L := by
  unfold prefetchSlotFromBuf
  rcases reserveDecodeSlot_cases cfg b e (fun _ => false) (fun _ => false) with hr |
    ⟨-, hi, hb, -, hr⟩ | ⟨-, -, s, -, -, hr⟩ | ⟨-, hid, s, -, hr⟩ <;> rw [hr]
  · exact h
  · exact h.identitySlot hi hb
  · exact h.touch s
  · dsimp only
    unfold uploadPrefillSlot
    rw [if_pos rfl]
    split
    · rename_i hc
      have hw : b.Sound cfg sidecar (fun t => L t ∨ t = s) := h.weaken fun _ => Or.inl
      have hset := hw.setSlot hid (s := s) (Or.inr rfl) (upload.result (sidecar e))
      cases hu : upload with
      | ok =>
        rw [hu] at hset
        exact hset.commitDecodeSlot (by simp [Bank.setSlot]) _
      | fail y =>
        rw [hu] at hset
        exact hset.invalidateDecodeSlot hc.2
    · exact h

/-! ### The invariant of loads in flight -/

/-- A load in flight: its slot still has the name it had when it was reserved, or none; a direct
    read writes the slot; a completed read left the record. -/
structure Load.InFlight (cfg : Config) (sidecar : Nat → ρ) (seq : Bool) (b : Bank ρ)
    (l : Load ρ) : Prop where
  expert_lt : l.expert < cfg.nExpert
  slot_lt : l.slot < cfg.slotBank
  evicted : ∀ a, b.l1.slotToExpert l.slot = some a → l.evicted = some a
  direct : l.job.direct = true → b.l1.bytes l.slot = l.job.data
  complete : l.job.complete = true → l.job.data = sidecar l.expert
  sequential : seq = true → l.job.direct = false

/-- Slot `s` is being overwritten by a direct read of one of the loads. -/
def Loading (loads : List (Load ρ)) (s : Nat) : Prop :=
  ∃ l ∈ loads, l.job.direct = true ∧ l.slot = s

/-- The bank and the loads in flight fit together. -/
structure LoadsSound (cfg : Config) (sidecar : Nat → ρ) (seq : Bool) (b : Bank ρ)
    (loads : List (Load ρ)) : Prop where
  bank : b.Sound cfg sidecar (Loading loads)
  inFlight : ∀ l ∈ loads, l.InFlight cfg sidecar seq b
  distinct : loads.Pairwise (fun l l' => l.slot ≠ l'.slot)
  movable : loads ≠ [] → cfg.identity = false

theorem not_loading_nil (s : Nat) : ¬ Loading ([] : List (Load ρ)) s := by
  simp [Loading]

/-- No load in flight. -/
theorem LoadsSound.nil (h : b.Sound cfg sidecar fun _ => False) :
    LoadsSound cfg sidecar seq b [] :=
  ⟨h.weaken fun _ hn => hn.elim, by simp, List.Pairwise.nil, fun hn => absurd rfl hn⟩

/-- A change of the bank that leaves names and bytes of L1 alone. -/
theorem LoadsSound.congr {b' : Bank ρ} (h : LoadsSound cfg sidecar seq b loads)
    (hb : b'.Sound cfg sidecar (Loading loads)) (hs : b'.l1.slotToExpert = b.l1.slotToExpert)
    (hy : b'.l1.bytes = b.l1.bytes) : LoadsSound cfg sidecar seq b' loads := by
  refine ⟨hb, fun l hl => ?_, h.distinct, h.movable⟩
  have hf := h.inFlight l hl
  exact { hf with evicted := by rw [hs]; exact hf.evicted, direct := by rw [hy]; exact hf.direct }

/-- **A load is started** in a slot no other load has. -/
theorem LoadsSound.push (h : LoadsSound cfg sidecar seq b loads) (hid : cfg.identity = false)
    {l : Load ρ} (he : l.expert < cfg.nExpert) (hs : l.slot < cfg.slotBank)
    (hne : ∀ l' ∈ loads, l'.slot ≠ l.slot) (hev : l.evicted = b.l1.slotToExpert l.slot)
    (hc : l.job.complete = true → l.job.data = sidecar l.expert)
    (hq : seq = true → l.job.direct = false) :
    LoadsSound cfg sidecar seq
      (if l.job.direct then b.setSlot l.slot l.job.data else b) (loads ++ [l]) := by
  have hsub : ∀ s, Loading loads s → Loading (loads ++ [l]) s := by
    rintro s ⟨l', hl', hd⟩
    exact ⟨l', List.mem_append_left _ hl', hd⟩
  have hold : ∀ l' ∈ loads, l'.InFlight cfg sidecar seq
      (if l.job.direct then b.setSlot l.slot l.job.data else b) := by
    intro l' hl'
    have hf := h.inFlight l' hl'
    refine { hf with evicted := ?_, direct := ?_ }
    · split
      · simpa [Bank.setSlot] using hf.evicted
      · exact hf.evicted
    · intro hd
      split
      · simpa [Bank.setSlot, Function.update_of_ne (hne l' hl')] using hf.direct hd
      · exact hf.direct hd
  refine ⟨?_, ?_, ?_, fun _ => hid⟩
  · split
    · rename_i hd
      exact (h.bank.weaken hsub).setSlot hid
        ⟨l, List.mem_append_right _ List.mem_cons_self, hd, rfl⟩ _
    · exact h.bank.weaken hsub
  · intro l' hl'
    rcases List.mem_append.mp hl' with hl' | hl'
    · exact hold l' hl'
    · obtain rfl := List.mem_singleton.mp hl'
      refine ⟨he, hs, ?_, ?_, hc, hq⟩
      · intro a ha
        rw [hev]
        split at ha
        · simpa [Bank.setSlot] using ha
        · exact ha
      · intro hd
        simp [hd, Bank.setSlot]
  · refine List.pairwise_append.mpr ⟨h.distinct, List.pairwise_singleton _ _, ?_⟩
    intro l' hl' l'' hl''
    obtain rfl := List.mem_singleton.mp hl''
    exact hne l' hl'

/-- **A load is joined**: it leaves the list, and the bank changes in its slot only. -/
theorem LoadsSound.drop {ls₁ ls₂ : List (Load ρ)} {l : Load ρ} {b' : Bank ρ}
    (h : LoadsSound cfg sidecar seq b (ls₁ ++ l :: ls₂))
    (hb : b'.Sound cfg sidecar (Loading (ls₁ ++ ls₂)))
    (hf : ∀ s, s ≠ l.slot → b'.l1.slotToExpert s = b.l1.slotToExpert s ∧
      b'.l1.bytes s = b.l1.bytes s) : LoadsSound cfg sidecar seq b' (ls₁ ++ ls₂) := by
  have hsub : (ls₁ ++ ls₂).Sublist (ls₁ ++ l :: ls₂) :=
    List.Sublist.append_left (List.sublist_cons_self l ls₂) ls₁
  refine ⟨hb, fun l' hl' => ?_, h.distinct.sublist hsub, fun _ => h.movable (by simp)⟩
  have hne : l'.slot ≠ l.slot := by
    have hd := List.pairwise_append.mp h.distinct
    rcases List.mem_append.mp hl' with hl' | hl'
    · exact hd.2.2 l' hl' l List.mem_cons_self
    · exact ((List.pairwise_cons.mp hd.2.1).1 l' hl').symm
  have hfl := h.inFlight l' (hsub.subset hl')
  refine { hfl with evicted := ?_, direct := ?_ }
  · rw [(hf l'.slot hne).1]
    exact hfl.evicted
  · rw [(hf l'.slot hne).2]
    exact hfl.direct

/-- A joined load leaves no other slot loading. -/
theorem loading_of_cons {ls₁ ls₂ : List (Load ρ)} {l : Load ρ} {s : Nat}
    (h : Loading (ls₁ ++ l :: ls₂) s) : Loading (ls₁ ++ ls₂) s ∨ s = l.slot := by
  obtain ⟨l', hl', hd, hs⟩ := h
  rcases List.mem_append.mp hl' with hl' | hl'
  · exact Or.inl ⟨l', List.mem_append_left _ hl', hd, hs⟩
  · rcases List.mem_cons.mp hl' with rfl | hl'
    · exact Or.inr hs.symm
    · exact Or.inl ⟨l', List.mem_append_right _ hl', hd, hs⟩

/-- A load that does not read directly does not count as loading. -/
theorem loading_of_cons_indirect {ls₁ ls₂ : List (Load ρ)} {l : Load ρ} {s : Nat}
    (hl : l.job.direct = false) (h : Loading (ls₁ ++ l :: ls₂) s) : Loading (ls₁ ++ ls₂) s := by
  obtain ⟨l', hl', hd, hs⟩ := h
  rcases List.mem_append.mp hl' with hl' | hl'
  · exact ⟨l', List.mem_append_left _ hl', hd, hs⟩
  · rcases List.mem_cons.mp hl' with rfl | hl'
    · rw [hl] at hd
      cases hd
    · exact ⟨l', List.mem_append_right _ hl', hd, hs⟩

/-- When the join of a load is harmless: a GPU L2 store that fails leaves the record of whoever
    its slot names. -/
def JoinKeeps (cfg : Config) (sidecar : Nat → ρ) (io : LoadIo ρ) (b : Bank ρ) (l : Load ρ) :
    Prop :=
  l.job.complete = true → (l.job.direct = true → io.markModified = true) →
    (l.job.direct = false → io.upload.done = true) →
    GpuL2StoreKeeps cfg sidecar io.gpuL2Store b.gpuL2 l.expert

/-- **Join.** A stored or skipped load leaves the list; a failed one stays in it, and the step
    is over. -/
theorem joinLoad_loadsSound (io : LoadIo ρ) {ls₁ ls₂ : List (Load ρ)} {l : Load ρ}
    (h : LoadsSound cfg sidecar seq b (ls₁ ++ l :: ls₂)) (hk : JoinKeeps cfg sidecar io b l) :
    let r := joinLoad cfg seq io b l
    (r.2 ≠ .failed → LoadsSound cfg sidecar seq r.1 (ls₁ ++ ls₂)) ∧
      (r.2 = .failed → LoadsSound cfg sidecar seq r.1 (ls₁ ++ l :: ls₂)) := by
  have hfl := h.inFlight l (by simp)
  have hid : cfg.identity = false := h.movable (by simp)
  unfold joinLoad
  by_cases hc : l.job.complete = false
  · -- the read did not finish
    rw [if_pos hc]
    cases hq : seq with
    | true =>
      refine ⟨fun _ => ?_, by simp⟩
      rw [hq] at h hfl
      exact h.drop (h.bank.weaken fun s => loading_of_cons_indirect (hfl.sequential rfl))
        fun _ _ => ⟨rfl, rfl⟩
    | false =>
      rw [hq] at h
      exact ⟨by simp, fun _ => h⟩
  rw [if_neg hc]
  have hcomplete : l.job.complete = true := by simpa using hc
  have hdata := hfl.complete hcomplete
  cases hd : l.job.direct with
  | true =>
    cases hm : io.markModified with
    | false => exact ⟨by simp, fun _ => h⟩
    | true =>
      refine ⟨fun _ => ?_, by simp⟩
      have hbytes : b.l1.bytes l.slot = sidecar l.expert := (hfl.direct hd).trans hdata
      have hstore := gpuL2StoreL1Slot_sound (h.bank.weaken fun _ => loading_of_cons)
        hbytes (hk hcomplete (fun _ => hm) (by simp [hd]))
      refine h.drop (hstore.commitDecodeSlot ?_ _) ?_
      · rw [(gpuL2StoreL1Slot_frame ..).1]
        exact hbytes
      · intro s hs
        simp [Bank.commitDecodeSlot, (gpuL2StoreL1Slot_frame ..).1, Function.update_of_ne hs]
  | false =>
    have hup := uploadDecodeSlot_sound io l.slot l.evicted
      (h.bank.weaken fun s => loading_of_cons_indirect hd) hid hdata
      (fun hu => hk hcomplete (by simp [hd]) (fun _ => hu))
    have hframe := fun s (hs : s ≠ l.slot) =>
      uploadDecodeSlot_frame cfg io b l.expert l.evicted l.job.data hs
    cases hr : (uploadDecodeSlot cfg io b l.expert l.slot l.evicted l.job.data).2 with
    | true =>
      refine ⟨fun _ => ?_, by simp [hr]⟩
      exact h.drop hup hframe
    | false =>
      refine ⟨by simp [hr], fun _ => ?_⟩
      refine ⟨hup.weaken ?_, fun l' hl' => ?_, h.distinct, h.movable⟩
      · rintro s ⟨l', hl', hx⟩
        exact ⟨l', (List.Sublist.append_left (List.sublist_cons_self l ls₂) ls₁).subset hl', hx⟩
      · have hfl' := h.inFlight l' hl'
        by_cases hs : l'.slot = l.slot
        · refine { hfl' with evicted := ?_, direct := ?_ }
          · intro a ha
            refine hfl'.evicted a ?_
            rw [hs] at ha ⊢
            exact uploadDecodeSlot_failed io b l.evicted l.job.data hr ha
          · intro hd'
            -- distinct slots: the direct load in this slot would be `l` itself
            exfalso
            have hp := List.pairwise_append.mp h.distinct
            rcases List.mem_append.mp hl' with hl' | hl'
            · exact hp.2.2 l' hl' l List.mem_cons_self hs
            · rcases List.mem_cons.mp hl' with rfl | hl'
              · rw [hd] at hd'
                cases hd'
              · exact (List.pairwise_cons.mp hp.2.1).1 l' hl' hs.symm
        · refine { hfl' with evicted := fun a ha => ?_, direct := fun hd' => ?_ }
          · exact hfl'.evicted a ((hframe l'.slot hs).1.symm.trans ha)
          · exact (hframe l'.slot hs).2.trans (hfl'.direct hd')

/-- When giving the loads up is harmless: every direct read was over a slot without a name, or
    left the record of the expert the slot names. -/
def AbandonKeeps (sidecar : Nat → ρ) (loads : List (Load ρ)) : Prop :=
  ∀ l ∈ loads, l.job.direct = true → Keeps sidecar l.evicted l.job.data

/-- **The loads are given up.** -/
theorem LoadsSound.abandon (h : LoadsSound cfg sidecar seq b loads)
    (hk : AbandonKeeps sidecar loads) : b.Sound cfg sidecar fun _ => False := by
  refine { h.bank with l1 := fun s _ => ?_ }
  by_cases hs : Loading loads s
  · obtain ⟨l, hl, hd, rfl⟩ := hs
    have hf := h.inFlight l hl
    intro a ha
    rw [hf.direct hd]
    exact hk l hl hd a (hf.evicted a ha)
  · exact h.bank.l1 s hs

/-! ### Starting the loads -/

/-- The routing loop keeps the loads sound and their slots reserved. -/
structure Routing.Sound (cfg : Config) (sidecar : Nat → ρ) (seq : Bool) (st : Routing ρ) :
    Prop where
  loads : LoadsSound cfg sidecar seq st.bank st.loads
  reserved : ∀ l ∈ st.loads, st.reservedSlots l.slot = true

/-- A new bank the loads in flight fit. -/
theorem Routing.Sound.setBank {st : Routing ρ} (h : st.Sound cfg sidecar seq) {b' : Bank ρ}
    (hb : LoadsSound cfg sidecar seq b' st.loads) :
    ({ st with bank := b' } : Routing ρ).Sound cfg sidecar seq :=
  ⟨hb, h.reserved⟩

/-- Assigning a slot reserves it. -/
theorem Routing.Sound.assign {st : Routing ρ} (h : st.Sound cfg sidecar seq) (e s : Nat) :
    (st.assign e s).Sound cfg sidecar seq := by
  refine ⟨h.loads, fun l hl => ?_⟩
  show Function.update st.reservedSlots s true l.slot = true
  by_cases hs : l.slot = s
  · rw [hs, Function.update_self]
  · rw [Function.update_of_ne hs]
    exact h.reserved l hl

/-- The bank a reservation leaves fits the loads that were in flight. -/
theorem LoadsSound.reserve (h : LoadsSound cfg sidecar seq b loads) (e : Nat)
    (prot res : Nat → Bool) :
    LoadsSound cfg sidecar seq (reserveDecodeSlot cfg b e prot res).1 loads := by
  rcases reserveDecodeSlot_cases cfg b e prot res with hr | ⟨-, hi, hb, -, hr⟩ |
    ⟨-, -, s, -, -, hr⟩ | ⟨-, -, s, -, hr⟩ <;> rw [hr]
  · exact h
  · have hnil : loads = [] := by
      by_contra hn
      rw [h.movable hn] at hi
      cases hi
    subst hnil
    exact ⟨h.bank.identitySlot hi hb, by simp, List.Pairwise.nil, fun hn => absurd rfl hn⟩
  · exact h.congr (h.bank.touch s) rfl rfl
  · exact h

/-- **One load of a prefetch is set up.** -/
theorem startPrefetchLoad_sound (io : PrefetchIo ρ) {st : Routing ρ} {e : Nat} {r : Reserved}
    (h : st.Sound cfg sidecar cfg.prefetchScratchOnly) (hid : cfg.identity = false)
    (he : e < cfg.nExpert) (hs : r.slot < cfg.slotBank)
    (hne : ∀ l ∈ st.loads, l.slot ≠ r.slot) (hr : st.reservedSlots r.slot = true)
    (hev : r.evicted = st.bank.l1.slotToExpert r.slot) :
    (startPrefetchLoad cfg sidecar io st e r).1.Sound cfg sidecar cfg.prefetchScratchOnly := by
  have hlf := l2Lookup_frame cfg st.bank e
  have hls : LoadsSound cfg sidecar cfg.prefetchScratchOnly (l2Lookup cfg st.bank e).1
      st.loads :=
    h.loads.congr (l2Lookup_sound h.loads.bank e) (by rw [hlf.1]) (by rw [hlf.1])
  unfold startPrefetchLoad
  dsimp only
  split
  · exact ⟨hls, h.reserved⟩
  · set src := if cfg.prefetchScratchOnly = true then sidecar e
        else (l2Lookup cfg st.bank e).2.getD (sidecar e) with hsrc
    have hsrc' : src = sidecar e := by
      rw [hsrc]
      split
      · rfl
      · cases hf : (l2Lookup cfg st.bank e).2 with
        | none => rfl
        | some x => exact l2Lookup_bytes h.loads.bank hf
    refine ⟨?_, ?_⟩
    · have hpush := hls.push (l := ⟨e, r.slot, r.evicted,
          ⟨cfg.prefetchDirect && io.slotPtr st.loads.length,
            (io.read st.loads.length).result src, (io.read st.loads.length).done⟩⟩)
        hid he hs hne (by rw [hlf.1]; exact hev) ?_ ?_
      · exact hpush
      · intro hc
        cases hw : io.read st.loads.length with
        | ok => exact hsrc'
        | fail x =>
          rw [hw] at hc
          cases hc
      · intro hq
        simp [Config.prefetchDirect, hq]
    · intro l hl
      rcases List.mem_append.mp hl with hl | hl
      · exact h.reserved l hl
      · rw [List.mem_singleton.mp hl]
        exact hr

/-- **The routing loop of a prefetch**, by induction on the positions that are left. -/
theorem prefetchLoop_sound (io : PrefetchIo ρ) (ids : List Nat) (st : Routing ρ)
    (h : st.Sound cfg sidecar cfg.prefetchScratchOnly) :
    (prefetchLoop cfg sidecar io st ids).1.Sound cfg sidecar cfg.prefetchScratchOnly := by
  induction ids generalizing st with
  | nil => exact h
  | cons e es ih =>
    unfold prefetchLoop
    cases st.slotOf e with
    | some s => exact ih _ (h.assign e s)
    | none =>
      dsimp only
      have hbank := h.loads.reserve e st.protectedExperts st.reservedSlots
      rcases reserveDecodeSlot_cases cfg st.bank e st.protectedExperts st.reservedSlots with hr |
        ⟨-, -, -, -, hr⟩ | ⟨-, -, s, -, -, hr⟩ | ⟨he, hid, s, hs, hr⟩ <;> rw [hr] at hbank ⊢
      · exact h
      · exact ih _ ((h.setBank hbank).assign e e)
      · exact ih _ ((h.setBank hbank).assign e s)
      · dsimp only
        rw [if_neg (by simp)]
        have hres := (pickSlot_eq_some hs).2
        have hne : ∀ l ∈ st.loads, l.slot ≠ s := by
          rintro l hl rfl
          rw [h.reserved l hl] at hres
          cases hres
        split
        · exact ⟨hbank, h.reserved⟩
        · have hassign : (st.assign e s).Sound cfg sidecar cfg.prefetchScratchOnly :=
            h.assign e s
          split
          · exact hassign
          · have hstart := startPrefetchLoad_sound (e := e)
              (r := ⟨s, st.bank.l1.slotToExpert s, true⟩) io hassign hid he
              (pickSlot_eq_some hs).1 hne (by simp [Routing.assign]) rfl
            split
            · exact hstart
            · split
              · exact ⟨hstart.loads, hstart.reserved⟩
              · exact ih _ hstart

/-- **Prefetch**: the loads it starts are sound, whether it succeeds or not. -/
theorem prefetchRoutes_sound (io : PrefetchIo ρ) (ids : List Nat)
    (h : b.Sound cfg sidecar fun _ => False) :
    LoadsSound cfg sidecar cfg.prefetchScratchOnly
      (prefetchRoutes cfg sidecar io b ids).1.bank (prefetchRoutes cfg sidecar io b ids).1.loads :=
  (prefetchLoop_sound io ids (Routing.init cfg b ids) ⟨LoadsSound.nil h, by simp [Routing.init]⟩).1

/-! ### The async handout -/

/-- The misses an async handout has noted: their slots are distinct, reserved, and have the
    names the reservations saw. -/
structure MissesSound (cfg : Config) (b : Bank ρ) (res : Nat → Bool)
    (misses : List (Nat × Reserved)) : Prop where
  fit : ∀ m ∈ misses, m.1 < cfg.nExpert ∧ m.2.slot < cfg.slotBank ∧
    m.2.evicted = b.l1.slotToExpert m.2.slot ∧ res m.2.slot = true
  distinct : misses.Pairwise (fun m m' => m.2.slot ≠ m'.2.slot)
  movable : misses ≠ [] → cfg.identity = false

/-- **The routing loop of the handout.** -/
theorem asyncRoutes_sound (ids : List Nat) (st : Routing ρ) (misses : List (Nat × Reserved))
    (h : st.bank.Sound cfg sidecar fun _ => False)
    (hm : MissesSound cfg st.bank st.reservedSlots misses) :
    let r := asyncRoutes cfg st ids misses
    r.1.bank.Sound cfg sidecar (fun _ => False) ∧
      ∀ ms, r.2 = some ms → MissesSound cfg r.1.bank r.1.reservedSlots ms := by
  induction ids generalizing st misses with
  | nil =>
    refine ⟨h, ?_⟩
    rintro ms ⟨⟩
    exact hm
  | cons e es ih =>
    unfold asyncRoutes
    cases st.slotOf e with
    | some s => exact ih _ misses h hm
    | none =>
      dsimp only
      have hbank := reserveDecodeSlot_sound h e st.protectedExperts st.reservedSlots
      have hgrow : ∀ (b' : Bank ρ) (s : Nat), b'.l1.slotToExpert = st.bank.l1.slotToExpert →
          MissesSound cfg b' (Function.update st.reservedSlots s true) misses := by
        intro b' s hb'
        refine ⟨fun m hmem => ?_, hm.distinct, hm.movable⟩
        obtain ⟨h₁, h₂, h₃, h₄⟩ := hm.fit m hmem
        refine ⟨h₁, h₂, by rw [hb']; exact h₃, ?_⟩
        by_cases hs : m.2.slot = s
        · rw [hs, Function.update_self]
        · rw [Function.update_of_ne hs]
          exact h₄
      rcases reserveDecodeSlot_cases cfg st.bank e st.protectedExperts st.reservedSlots with hr |
        ⟨-, hi, -, -, hr⟩ | ⟨-, -, s, -, -, hr⟩ | ⟨he, hid, s, hs, hr⟩ <;> rw [hr] at hbank ⊢
      · exact ⟨h, by simp⟩
      · have hnil : misses = [] := by
          by_contra hn
          rw [hm.movable hn] at hi
          cases hi
        subst hnil
        exact ih _ [] hbank ⟨by simp, List.Pairwise.nil, fun hn => absurd rfl hn⟩
      · exact ih _ misses hbank (hgrow _ s rfl)
      · dsimp only
        rw [if_neg (by simp)]
        have hpick := pickSlot_eq_some hs
        split
        · exact ⟨h, by simp⟩
        · refine ih _ _ h ⟨?_, ?_, fun _ => hid⟩
          · intro m hmem
            rcases List.mem_append.mp hmem with hmem | hmem
            · exact (hgrow st.bank s rfl).fit m hmem
            · rw [List.mem_singleton.mp hmem]
              exact ⟨he, hpick.1, rfl, by simp [Routing.assign]⟩
          · refine List.pairwise_append.mpr ⟨hm.distinct, List.pairwise_singleton _ _, ?_⟩
            intro m hmem m' hmem'
            rw [List.mem_singleton.mp hmem']
            intro heq
            have := (hm.fit m hmem).2.2.2
            rw [heq, hpick.2] at this
            cases this

/-- The reads of a handout are started one after the other. -/
theorem asyncStart_sound (io : AsyncIo ρ) (misses : List (Nat × Reserved)) (li : Nat) (b : Bank ρ)
    (loads : List (Load ρ)) {res : Nat → Bool} (h : LoadsSound cfg sidecar false b loads)
    (hm : MissesSound cfg b res misses)
    (hne : ∀ l ∈ loads, ∀ m ∈ misses, l.slot ≠ m.2.slot) :
    let r := asyncStart cfg sidecar io li b misses
    LoadsSound cfg sidecar false r.1 (loads ++ r.2) := by
  induction misses generalizing li b loads with
  | nil => simpa [asyncStart] using h
  | cons m ms ih =>
    obtain ⟨e, r⟩ := m
    unfold asyncStart
    dsimp only
    have hid := hm.movable (by simp)
    obtain ⟨he, hs, hev, -⟩ := hm.fit (e, r) List.mem_cons_self
    have hpush := h.push (l := ⟨e, r.slot, r.evicted,
        ⟨io.direct cfg li, (io.read li).result (sidecar e), (io.read li).done⟩⟩) hid he hs
      (fun l hl => hne l hl (e, r) List.mem_cons_self) hev ?_ (by simp)
    · have hrest := ih (li + 1) _ _ hpush ?_ ?_
      · simpa only [List.append_assoc, List.singleton_append] using hrest
      · refine ⟨fun m hmem => ?_, (List.pairwise_cons.mp hm.distinct).2, fun _ => hid⟩
        obtain ⟨h₁, h₂, h₃, h₄⟩ := hm.fit m (List.mem_cons_of_mem _ hmem)
        refine ⟨h₁, h₂, ?_, h₄⟩
        rw [h₃]
        split <;> rfl
      · intro l hl m hmem
        rcases List.mem_append.mp hl with hl | hl
        · exact hne l hl m (List.mem_cons_of_mem _ hmem)
        · rw [List.mem_singleton.mp hl]
          exact (List.pairwise_cons.mp hm.distinct).1 m hmem
    · intro hc
      cases hw : io.read li with
      | ok => rfl
      | fail x =>
        rw [hw] at hc
        cases hc

/-- **Async handout**: without loads the bank is sound, with loads they are. -/
theorem asyncHandout_sound (io : AsyncIo ρ) (ids : List Nat)
    (h : b.Sound cfg sidecar fun _ => False) :
    let r := asyncHandout cfg sidecar io b ids
    LoadsSound cfg sidecar false r.1 (r.2.getD []) := by
  obtain ⟨hs, hm⟩ := asyncRoutes_sound ids (Routing.init cfg b ids) [] h
    ⟨by simp, List.Pairwise.nil, fun hn => absurd rfl hn⟩
  unfold asyncHandout
  cases hr : asyncRoutes cfg (Routing.init cfg b ids) ids [] with
  | mk st out =>
    rw [hr] at hs hm
    cases out with
    | none => exact LoadsSound.nil hs
    | some misses =>
      dsimp only
      split
      · unfold asyncStartLoads
        split
        · exact LoadsSound.nil hs
        · have := asyncStart_sound io misses 0 st.bank [] (LoadsSound.nil hs) (hm misses rfl)
            (by simp)
          simpa using this
      · exact LoadsSound.nil hs

end DS4.FlashMoe
