import DS4.FlashMoe.Shrink

namespace DS4.FlashMoe

/-!
# Flash-MoE — the banks after a shrink

A level is coherent when its tables are inverse to each other and each named slot holds the
record of its expert.  A shrink that succeeds leaves in every layer the most recently used
records, laid out at the new stride (`Carried`).

The loop over the layers keeps `CarryInv`: the rows below the current layer are at the new
stride and carried, the rows from it on are still the old ones.  Compaction never reaches a row
it has not read, since row `il` ends at `(il + 1) * target_slots`, before the old row `il + 1`
starts.  A call that stops between two layers leaves both kinds of rows behind, under the old
slot count.
-/

variable {ρ : Type}

/-! ### Coherent levels -/

/-- The tables are inverse to each other, and a named slot holds its expert's record. -/
structure Level.Coherent (nExpert slots : Nat) (record : Nat → ρ) (lv : Level (Option ρ)) :
    Prop where
  named : ∀ s < slots, ∀ e, lv.slotToExpert s = some e →
    e < nExpert ∧ lv.expertToSlot e = some s ∧ lv.bytes s = some (record e)
  mapped : ∀ e < nExpert, ∀ s, lv.expertToSlot e = some s →
    s < slots ∧ lv.slotToExpert s = some e

/-- Every layer of a level is coherent, at the level's own slot count. -/
def FlatLevel.Coherent (env : ShrinkEnv ρ) (lv : FlatLevel ρ) : Prop :=
  ∀ il < env.nLayer,
    (lv.layer env.nExpert lv.slotBank il).Coherent env.nExpert lv.slotBank (env.record il)

/-- Both levels of the graph are coherent. -/
def SlotBanks.Coherent (env : ShrinkEnv ρ) (s : SlotBanks ρ) : Prop :=
  s.l1.Coherent env ∧ s.gpuL2.Coherent env

/-- Two levels with the same tables and bytes, as far as `slots` and `nExpert` reach. -/
structure Level.Same (nExpert slots : Nat) (a b : Level (Option ρ)) : Prop where
  slot : ∀ s < slots, b.slotToExpert s = a.slotToExpert s
  age : ∀ s < slots, b.slotAge s = a.slotAge s
  bytes : ∀ s < slots, b.bytes s = a.bytes s
  expert : ∀ e < nExpert, b.expertToSlot e = a.expertToSlot e

theorem Level.Same.refl {nExpert slots : Nat} (a : Level (Option ρ)) : Level.Same nExpert slots a a :=
  ⟨fun _ _ => rfl, fun _ _ => rfl, fun _ _ => rfl, fun _ _ => rfl⟩

theorem Level.Same.trans {nExpert slots : Nat} {a b c : Level (Option ρ)}
    (h : Level.Same nExpert slots a b) (h' : Level.Same nExpert slots b c) :
    Level.Same nExpert slots a c :=
  ⟨fun s hs => (h'.slot s hs).trans (h.slot s hs), fun s hs => (h'.age s hs).trans (h.age s hs),
    fun s hs => (h'.bytes s hs).trans (h.bytes s hs),
    fun e he => (h'.expert e he).trans (h.expert e he)⟩

/-! ### Residents -/

section Residents

variable {nExpert fromSlots : Nat} {lv : Level (Option ρ)} {record : Nat → ρ}

theorem mem_residents {c : CarrySlot} :
    c ∈ residents nExpert lv fromSlots ↔
      c.slot < fromSlots ∧ lv.slotToExpert c.slot = some c.expert ∧ c.expert < nExpert ∧
        c.age = lv.slotAge c.slot := by
  unfold residents
  rw [List.mem_filterMap]
  constructor
  · rintro ⟨slot, hslot, hc⟩
    obtain ⟨e, he, hc⟩ := Option.bind_eq_some_iff.mp hc
    split at hc
    · next hlt =>
      rw [← Option.some.inj hc]
      exact ⟨List.mem_range.mp hslot, he, hlt, rfl⟩
    · exact absurd hc (by simp)
  · rintro ⟨hslot, he, hlt, hage⟩
    refine ⟨c.slot, List.mem_range.mpr hslot, ?_⟩
    rw [he, Option.bind_some, if_pos hlt, ← hage]

/-- The residents of a coherent row are different experts. -/
theorem residents_nodup (h : lv.Coherent nExpert fromSlots record) :
    ((residents nExpert lv fromSlots).map CarrySlot.expert).Nodup := by
  unfold residents
  rw [List.nodup_iff_pairwise_ne, List.pairwise_map]
  apply List.Pairwise.filterMap (R := fun a b => a < b ∧ a < fromSlots ∧ b < fromSlots)
  · rintro a b ⟨hlt, ha, hb⟩ c hc d hd heq
    obtain ⟨e, he, hc⟩ := Option.bind_eq_some_iff.mp hc
    obtain ⟨e', he', hd⟩ := Option.bind_eq_some_iff.mp hd
    split at hc <;> [skip; exact absurd hc (by simp)]
    split at hd <;> [skip; exact absurd hd (by simp)]
    obtain rfl := Option.some.inj hc
    obtain rfl := Option.some.inj hd
    -- one expert has one slot
    have h1 := (h.named a ha e he).2.1
    have h2 := (h.named b hb e' he').2.1
    obtain rfl : e = e' := heq
    rw [h1] at h2
    exact absurd (Option.some.inj h2) (Nat.ne_of_lt hlt)
  · apply List.Pairwise.imp_of_mem _ List.pairwise_lt_range
    intro a b ha hb hlt
    exact ⟨hlt, List.mem_range.mp ha, List.mem_range.mp hb⟩

theorem residents_length_le : (residents nExpert lv fromSlots).length ≤ fromSlots := by
  unfold residents
  exact le_trans (List.length_filterMap_le _ _) (by rw [List.length_range])

theorem residents_congr {lv' : Level (Option ρ)} (h : Level.Same nExpert fromSlots lv lv') :
    residents nExpert lv' fromSlots = residents nExpert lv fromSlots := by
  unfold residents
  apply List.filterMap_congr
  intro s hs
  rw [h.slot s (List.mem_range.mp hs), h.age s (List.mem_range.mp hs)]

end Residents

/-! ### Rows that carry a list of records -/

/-- The row holds exactly `kept`, in order: the experts with their ages and records, the two
    tables inverse to each other. -/
structure Carried (nExpert slots : Nat) (record : Nat → ρ) (kept : List CarrySlot)
    (lv : Level (Option ρ)) : Prop where
  slot : ∀ s < slots, lv.slotToExpert s = kept[s]?.map CarrySlot.expert
  age : ∀ s < slots, lv.slotAge s = (kept[s]?.map CarrySlot.age).getD 0
  expert : ∀ e < nExpert, ∀ s,
    lv.expertToSlot e = some s ↔ kept[s]?.map CarrySlot.expert = some e
  bytes : ∀ s c, kept[s]? = some c → lv.bytes s = some (record c.expert)
  fits : kept.length ≤ slots
  bounded : ∀ c ∈ kept, c.expert < nExpert

namespace Carried

variable {nExpert slots : Nat} {record : Nat → ρ} {kept : List CarrySlot}
  {lv lv' : Level (Option ρ)}

theorem lt_slots (h : Carried nExpert slots record kept lv) {s : Nat} {c : CarrySlot}
    (hc : kept[s]? = some c) : s < slots := by
  obtain ⟨hlt, -⟩ := List.getElem?_eq_some_iff.mp hc
  exact lt_of_lt_of_le hlt h.fits

theorem coherent (h : Carried nExpert slots record kept lv) :
    lv.Coherent nExpert slots record where
  named := by
    intro s hs e he
    rw [h.slot s hs] at he
    obtain ⟨c, hc, hce⟩ := Option.map_eq_some_iff.mp he
    have hlt : e < nExpert := hce ▸ h.bounded c (List.mem_of_getElem? hc)
    refine ⟨hlt, (h.expert e hlt s).mpr he, ?_⟩
    rw [h.bytes s c hc, hce]
  mapped := by
    intro e he s hs
    have hkept := (h.expert e he s).mp hs
    obtain ⟨c, hc, -⟩ := Option.map_eq_some_iff.mp hkept
    exact ⟨h.lt_slots hc, (h.slot s (h.lt_slots hc)).trans hkept⟩

theorem congr (h : Carried nExpert slots record kept lv)
    (hsame : Level.Same nExpert slots lv lv') : Carried nExpert slots record kept lv' where
  slot := fun s hs => (hsame.slot s hs).trans (h.slot s hs)
  age := fun s hs => (hsame.age s hs).trans (h.age s hs)
  expert := by
    intro e he s
    rw [hsame.expert e he]
    exact h.expert e he s
  bytes := fun s c hc => (hsame.bytes s (h.lt_slots hc)).trans (h.bytes s c hc)
  fits := h.fits
  bounded := h.bounded

end Carried

/-- No entry in the rows of layer `il`. -/
structure FlatLevel.Blank (nExpert stride il : Nat) (lv : FlatLevel ρ) : Prop where
  slot : ∀ s < stride, lv.slotToExpert (il * stride + s) = none
  age : ∀ s < stride, lv.slotAge (il * stride + s) = 0
  expert : ∀ e < nExpert, lv.expertToSlot (il * nExpert + e) = none

/-- The tables change in the rows of layer `il` alone, and so do the banks. -/
structure FlatLevel.RowOnly (nExpert stride il : Nat) (lv lv' : FlatLevel ρ) : Prop where
  slot : ∀ k, k < il * stride ∨ il * stride + stride ≤ k →
    lv'.slotToExpert k = lv.slotToExpert k ∧ lv'.slotAge k = lv.slotAge k
  expert : ∀ k, k < il * nExpert ∨ il * nExpert + nExpert ≤ k →
    lv'.expertToSlot k = lv.expertToSlot k
  bank : ∀ j, j ≠ il → lv'.mixedBank j = lv.mixedBank j
  slots : lv'.slotBank = lv.slotBank

namespace FlatLevel.RowOnly

variable {nExpert stride il : Nat} {lv lv' lv'' : FlatLevel ρ}

theorem trans (h : RowOnly nExpert stride il lv lv') (h' : RowOnly nExpert stride il lv' lv'') :
    RowOnly nExpert stride il lv lv'' where
  slot := fun k hk => ⟨((h'.slot k hk).1).trans (h.slot k hk).1,
    ((h'.slot k hk).2).trans (h.slot k hk).2⟩
  expert := fun k hk => (h'.expert k hk).trans (h.expert k hk)
  bank := fun j hj => (h'.bank j hj).trans (h.bank j hj)
  slots := h'.slots.trans h.slots

theorem resetRows (lv : FlatLevel ρ) : RowOnly nExpert stride il lv (lv.resetRows nExpert stride il) where
  slot := by
    intro k hk
    constructor
    · exact if_neg (by omega)
    · exact if_neg (by omega)
  expert := fun k hk => if_neg (by omega)
  bank := fun _ _ => rfl
  slots := rfl

theorem put {slot expert : Nat} (hslot : slot < stride) (hexpert : expert < nExpert)
    (age : UInt64) : RowOnly nExpert stride il lv (lv.put nExpert stride il slot expert age) where
  slot := by
    intro k hk
    constructor
    · exact Function.update_of_ne (by omega) _ _
    · exact Function.update_of_ne (by omega) _ _
  expert := fun k hk => Function.update_of_ne (by omega) _ _
  bank := fun _ _ => rfl
  slots := rfl

theorem setBank (new : SlotBytes ρ) : RowOnly nExpert stride il lv
    { lv with mixedBank := Function.update lv.mixedBank il (some new) } where
  slot := fun _ _ => ⟨rfl, rfl⟩
  expert := fun _ _ => rfl
  bank := fun _ hj => Function.update_of_ne hj _ _
  slots := rfl

/-- The entries of another layer's row stay, when that row, at whatever stride, is disjoint from
    the row written. -/
theorem same (h : RowOnly nExpert stride il lv lv') {j stride' : Nat} (hj : j ≠ il)
    (hslot : ∀ s < stride', j * stride' + s < il * stride ∨ il * stride + stride ≤ j * stride' + s) :
    Level.Same nExpert stride' (lv.layer nExpert stride' j) (lv'.layer nExpert stride' j) where
  slot := fun s hs => (h.slot _ (hslot s hs)).1
  age := fun s hs => (h.slot _ (hslot s hs)).2
  bytes := by
    intro s _
    unfold FlatLevel.layer
    dsimp only
    rw [h.bank j hj]
  expert := by
    intro e he
    apply h.expert
    obtain hlt | hlt := Nat.lt_or_gt_of_ne hj
    · have := Nat.mul_le_mul_right nExpert (Nat.succ_le_of_lt hlt)
      rw [Nat.succ_mul] at this
      omega
    · have := Nat.mul_le_mul_right nExpert (Nat.succ_le_of_lt hlt)
      rw [Nat.succ_mul] at this
      omega

/-- The rows below, at the stride written. -/
theorem before (h : RowOnly nExpert stride il lv lv') {j : Nat} (hj : j < il) :
    Level.Same nExpert stride (lv.layer nExpert stride j) (lv'.layer nExpert stride j) := by
  apply h.same (Nat.ne_of_lt hj)
  intro s hs
  have := Nat.mul_le_mul_right stride (Nat.succ_le_of_lt hj)
  rw [Nat.succ_mul] at this
  omega

/-- The rows above, at any stride that is not smaller. -/
theorem after (h : RowOnly nExpert stride il lv lv') {j stride' : Nat} (hj : il < j)
    (hle : stride ≤ stride') :
    Level.Same nExpert stride' (lv.layer nExpert stride' j) (lv'.layer nExpert stride' j) := by
  apply h.same (Nat.ne_of_gt hj)
  intro s _
  -- the row written ends before row `il + 1` of the wider stride starts
  have h1 := Nat.mul_le_mul_right stride' (Nat.succ_le_of_lt hj)
  have h2 := Nat.mul_le_mul_left il hle
  rw [Nat.succ_mul] at h1
  omega

end FlatLevel.RowOnly

theorem FlatLevel.resetRows_blank (nExpert stride il : Nat) (lv : FlatLevel ρ) :
    FlatLevel.Blank nExpert stride il (lv.resetRows nExpert stride il) where
  slot := fun _ _ => if_pos (by omega)
  age := fun _ _ => if_pos (by omega)
  expert := fun _ _ => if_pos (by omega)

/-! ### Copying the records -/

section CarrySlots

variable {nExpert stride il : Nat} {old : SlotBytes ρ} {write : Nat → Bool}

/-- `kept` was laid out from slot `i` of layer `il` on, and nothing else was written. -/
structure Laid (nExpert stride il : Nat) (old : SlotBytes ρ) (i : Nat) (kept : List CarrySlot)
    (lv lv' : FlatLevel ρ) (new new' : SlotBytes ρ) : Prop where
  entry : ∀ t c, kept[t]? = some c →
    lv'.slotToExpert (il * stride + (i + t)) = some c.expert ∧
    lv'.slotAge (il * stride + (i + t)) = c.age ∧
    lv'.expertToSlot (il * nExpert + c.expert) = some (i + t) ∧
    new'.bytes (i + t) = old.bytes c.slot
  slotFrame : ∀ k, k < il * stride + i ∨ il * stride + (i + kept.length) ≤ k →
    lv'.slotToExpert k = lv.slotToExpert k ∧ lv'.slotAge k = lv.slotAge k
  expertFrame : ∀ k, (∀ c ∈ kept, k ≠ il * nExpert + c.expert) →
    lv'.expertToSlot k = lv.expertToSlot k
  byteFrame : ∀ m < i, new'.bytes m = new.bytes m
  room : new'.slots = new.slots
  bank : lv'.mixedBank = lv.mixedBank
  slots : lv'.slotBank = lv.slotBank

theorem carrySlots_laid {kept : List CarrySlot} (hnodup : (kept.map CarrySlot.expert).Nodup)
    {i : Nat} {lv : FlatLevel ρ} {new : SlotBytes ρ}
    (h : (carrySlots nExpert stride il old write i kept lv new).2.2 = true) :
    Laid nExpert stride il old i kept lv
      (carrySlots nExpert stride il old write i kept lv new).1 new
      (carrySlots nExpert stride il old write i kept lv new).2.1 := by
  induction kept generalizing i lv new with
  | nil =>
    refine ⟨by simp, fun _ _ => ⟨rfl, rfl⟩, fun _ _ => rfl, fun _ _ => rfl, rfl, rfl, rfl⟩
  | cons sel rest ih =>
    unfold carrySlots at h ⊢
    split at h
    · next hw =>
      rw [if_pos hw]
      rw [List.map_cons, List.nodup_cons] at hnodup
      have hrest := ih hnodup.2 h
      refine ⟨?_, ?_, ?_, ?_, hrest.room, hrest.bank, hrest.slots⟩
      · intro t c hc
        cases t with
        | zero =>
          -- the entry just written; the rest writes above it and for other experts
          obtain rfl := Option.some.inj hc
          have hs := hrest.slotFrame (il * stride + i) (Or.inl (by omega))
          have he := hrest.expertFrame (il * nExpert + sel.expert) (by
            intro c hc heq
            apply hnodup.1
            rw [List.mem_map]
            exact ⟨c, hc, by omega⟩)
          refine ⟨hs.1.trans ?_, hs.2.trans ?_, he.trans ?_, (hrest.byteFrame i (by omega)).trans ?_⟩
          · exact Function.update_self _ _ _
          · exact Function.update_self _ _ _
          · exact Function.update_self _ _ _
          · exact Function.update_self _ _ _
        | succ t =>
          have := hrest.entry t c hc
          rwa [show i + 1 + t = i + (t + 1) by omega] at this
      · intro k hk
        have hk' : k < il * stride + (i + 1) ∨ il * stride + (i + 1 + rest.length) ≤ k := by
          rw [List.length_cons] at hk
          omega
        have hne : k ≠ il * stride + i := by
          rw [List.length_cons] at hk
          omega
        have hs := hrest.slotFrame k hk'
        exact ⟨hs.1.trans (Function.update_of_ne hne _ _),
          hs.2.trans (Function.update_of_ne hne _ _)⟩
      · intro k hk
        refine (hrest.expertFrame k fun c hc => hk c (List.mem_cons_of_mem _ hc)).trans ?_
        exact Function.update_of_ne (hk sel List.mem_cons_self) _ _
      · intro m hm
        refine (hrest.byteFrame m (by omega)).trans ?_
        exact Function.update_of_ne (Nat.ne_of_lt hm) _ _
    · exact absurd h (by simp)

/-- The loop ends when every write succeeds. -/
theorem carrySlots_done {kept : List CarrySlot} {i : Nat} (lv : FlatLevel ρ) (new : SlotBytes ρ)
    (h : ∀ t < kept.length, write (i + t) = true) :
    (carrySlots nExpert stride il old write i kept lv new).2.2 = true := by
  induction kept generalizing i lv new with
  | nil => rfl
  | cons sel rest ih =>
    unfold carrySlots
    have hw : write i = true := h 0 (by simp)
    rw [if_pos hw]
    apply ih
    intro t ht
    have := h (t + 1) (by rw [List.length_cons]; omega)
    rwa [show i + 1 + t = i + (t + 1) by omega]

/-- Laying out writes the rows of its layer alone. -/
theorem Laid.rowOnly {kept : List CarrySlot} {lv lv' : FlatLevel ρ} {new new' : SlotBytes ρ}
    (h : Laid nExpert stride il old 0 kept lv lv' new new') (hfits : kept.length ≤ stride)
    (hbounded : ∀ c ∈ kept, c.expert < nExpert) :
    FlatLevel.RowOnly nExpert stride il lv lv' where
  slot := fun k hk => h.slotFrame k (by omega)
  expert := by
    intro k hk
    apply h.expertFrame
    intro c hc
    have := hbounded c hc
    omega
  bank := fun j _ => by rw [h.bank]
  slots := h.slots

/-- **A row that was blank carries what was laid out**, once its bank is the new one. -/
theorem Laid.carried {kept : List CarrySlot} {lv lv' : FlatLevel ρ} {new new' : SlotBytes ρ}
    {record : Nat → ρ} (h : Laid nExpert stride il old 0 kept lv lv' new new')
    (hblank : FlatLevel.Blank nExpert stride il lv) (hnodup : (kept.map CarrySlot.expert).Nodup)
    (hfits : kept.length ≤ stride) (hbounded : ∀ c ∈ kept, c.expert < nExpert)
    (hroom : new.slots = stride) (hrecord : ∀ c ∈ kept, old.bytes c.slot = record c.expert) :
    Carried nExpert stride record kept
      (FlatLevel.layer { lv' with mixedBank := Function.update lv'.mixedBank il (some new') }
        nExpert stride il) where
  slot := by
    intro s hs
    show lv'.slotToExpert (il * stride + s) = _
    cases hc : kept[s]? with
    | some c =>
      have := (h.entry s c hc).1
      rwa [Nat.zero_add] at this
    | none =>
      rw [(h.slotFrame _ (Or.inr (by have := List.getElem?_eq_none_iff.mp hc; omega))).1]
      exact hblank.slot s hs
  age := by
    intro s hs
    show lv'.slotAge (il * stride + s) = _
    cases hc : kept[s]? with
    | some c =>
      have := (h.entry s c hc).2.1
      rwa [Nat.zero_add] at this
    | none =>
      rw [(h.slotFrame _ (Or.inr (by have := List.getElem?_eq_none_iff.mp hc; omega))).2]
      exact hblank.age s hs
  expert := by
    intro e he s
    show lv'.expertToSlot (il * nExpert + e) = some s ↔ _
    by_cases hmem : ∃ (t : Nat) (c : CarrySlot), kept[t]? = some c ∧ c.expert = e
    · obtain ⟨t, c, hc, rfl⟩ := hmem
      have hentry := (h.entry t c hc).2.2.1
      rw [Nat.zero_add] at hentry
      rw [hentry]
      constructor
      · intro hts
        rw [← Option.some.inj hts, hc, Option.map_some]
      · intro hs
        -- the experts of the list are different
        obtain ⟨hlt, -⟩ := List.getElem?_eq_some_iff.mp hc
        have hinj : t = s := by
          refine (List.getElem?_inj (by rw [List.length_map]; exact hlt) hnodup).mp ?_
          rw [List.getElem?_map, List.getElem?_map, hs, hc, Option.map_some]
        rw [hinj]
    · have hframe := h.expertFrame (il * nExpert + e) (by
        intro c hc heq
        obtain ⟨t, ht⟩ := List.getElem?_of_mem hc
        exact hmem ⟨t, c, ht, by omega⟩)
      rw [hframe, hblank.expert e he]
      constructor
      · intro hs
        exact absurd hs (by simp)
      · intro hs
        obtain ⟨c, hc, hce⟩ := Option.map_eq_some_iff.mp hs
        exact absurd ⟨s, c, hc, hce⟩ hmem
  bytes := by
    intro s c hc
    have hlt : s < new'.slots := by
      obtain ⟨hlt, -⟩ := List.getElem?_eq_some_iff.mp hc
      rw [h.room, hroom]
      exact lt_of_lt_of_le hlt hfits
    have hbyte := (h.entry s c hc).2.2.2
    rw [Nat.zero_add] at hbyte
    unfold FlatLevel.layer
    dsimp only
    rw [Function.update_self, Option.bind_some, if_pos hlt, hbyte,
      hrecord c (List.mem_of_getElem? hc)]
  fits := hfits
  bounded := hbounded

end CarrySlots

/-! ### What is selected -/

section Selected

variable {nExpert fromSlots n : Nat} {lv : Level (Option ρ)} {record : Nat → ρ}

theorem selectHotSlots_topOf (nExpert : Nat) (lv : Level (Option ρ)) (fromSlots n : Nat) :
    Lib.TopOf (fun c : CarrySlot => c.age.toNat) n (residents nExpert lv fromSlots)
      (selectHotSlots nExpert lv fromSlots n) :=
  Lib.topK_spec _ _ _

theorem selectHotSlots_congr {lv' : Level (Option ρ)} (h : Level.Same nExpert fromSlots lv lv') :
    selectHotSlots nExpert lv' fromSlots n = selectHotSlots nExpert lv fromSlots n := by
  unfold selectHotSlots
  rw [residents_congr h]

theorem selectHotSlots_subset {c : CarrySlot} (hc : c ∈ selectHotSlots nExpert lv fromSlots n) :
    c ∈ residents nExpert lv fromSlots := by
  obtain ⟨dropped, hperm, -⟩ := (selectHotSlots_topOf nExpert lv fromSlots n).rest
  exact hperm.subset (List.mem_append_left _ hc)

theorem selectHotSlots_nodup (h : lv.Coherent nExpert fromSlots record) :
    ((selectHotSlots nExpert lv fromSlots n).map CarrySlot.expert).Nodup := by
  obtain ⟨dropped, hperm, -⟩ := (selectHotSlots_topOf nExpert lv fromSlots n).rest
  have hnodup := (hperm.map CarrySlot.expert).nodup_iff.mpr (residents_nodup h)
  rw [List.map_append] at hnodup
  exact (List.nodup_append.mp hnodup).1

theorem selectHotSlots_bounded {c : CarrySlot} (hc : c ∈ selectHotSlots nExpert lv fromSlots n) :
    c.expert < nExpert :=
  ((mem_residents).mp (selectHotSlots_subset hc)).2.2.1

theorem selectHotSlots_length_le : (selectHotSlots nExpert lv fromSlots n).length ≤ n := by
  rw [(selectHotSlots_topOf nExpert lv fromSlots n).length]
  exact Nat.min_le_left _ _

theorem selectHotSlots_isEmpty (hn : 0 < n) :
    (selectHotSlots nExpert lv fromSlots n).isEmpty = true ↔
      residents nExpert lv fromSlots = [] := by
  rw [List.isEmpty_iff, ← List.length_eq_zero_iff, ← List.length_eq_zero_iff,
    (selectHotSlots_topOf nExpert lv fromSlots n).length]
  omega

/-- The old bank holds the record of a selected expert. -/
theorem selectHotSlots_record {lv : FlatLevel ρ} {il : Nat} {old : SlotBytes ρ}
    (h : (lv.layer nExpert fromSlots il).Coherent nExpert fromSlots record)
    (hold : lv.mixedBank il = some old) {c : CarrySlot}
    (hc : c ∈ selectHotSlots nExpert (lv.layer nExpert fromSlots il) fromSlots n) :
    old.bytes c.slot = record c.expert := by
  obtain ⟨hslot, he, -, -⟩ := (mem_residents).mp (selectHotSlots_subset hc)
  have hbytes := (h.named c.slot hslot c.expert he).2.2
  unfold FlatLevel.layer at hbytes
  dsimp only at hbytes
  rw [hold, Option.bind_some] at hbytes
  split at hbytes
  · exact Option.some.inj hbytes
  · exact absurd hbytes (by simp)

end Selected

/-! ### The loop over the layers -/

section EachLayer

variable {f : Nat → SlotBanks ρ → SlotBanks ρ × Bool}

/-- What every successful layer keeps holds after a successful loop. -/
theorem eachLayer_invariant {Inv : Nat → SlotBanks ρ → Prop} {last : Nat}
    (hstep : ∀ il < last, ∀ s, Inv il s → (f il s).2 = true → Inv (il + 1) (f il s).1)
    {n il : Nat} {s : SlotBanks ρ} (hlast : il + n = last) (hs : Inv il s)
    (hok : (eachLayer f il n s).2 = true) : Inv last (eachLayer f il n s).1 := by
  induction n generalizing il s with
  | zero =>
    obtain rfl : il = last := hlast
    exact hs
  | succ n ih =>
    unfold eachLayer at hok ⊢
    split at hok
    · next hf =>
      rw [if_pos hf]
      exact ih (by omega) (hstep il (by omega) s hs hf) hok
    · next hf => exact absurd hok hf

/-- If every layer succeeds in a state that meets the invariant, the loop does. -/
theorem eachLayer_done {Inv : Nat → SlotBanks ρ → Prop} {last : Nat}
    (hstep : ∀ il < last, ∀ s, Inv il s → (f il s).2 = true → Inv (il + 1) (f il s).1)
    (hdone : ∀ il < last, ∀ s, Inv il s → (f il s).2 = true)
    {n il : Nat} {s : SlotBanks ρ} (hlast : il + n = last) (hs : Inv il s) :
    (eachLayer f il n s).2 = true := by
  induction n generalizing il s with
  | zero => rfl
  | succ n ih =>
    have hf := hdone il (by omega) s hs
    unfold eachLayer
    rw [if_pos hf]
    exact ih (by omega) (hstep il (by omega) s hs hf)

theorem eachLayer_stops {n il : Nat} {s : SlotBanks ρ} (hn : 0 < n)
    (hf : f il s = (s, false)) : eachLayer f il n s = (s, false) := by
  obtain ⟨n, rfl⟩ := Nat.exists_eq_succ_of_ne_zero (Nat.ne_of_gt hn)
  unfold eachLayer
  rw [hf]
  rfl

end EachLayer

/-! ### The carrying shrink -/

section Carry

variable {env : ShrinkEnv ρ} {targetSlots : Nat}

/-- The checks and calls of layer `il` that come before its rows are reset go through. -/
structure CarryReady (env : ShrinkEnv ρ) (io : ShrinkIo ρ) (fromSlots targetSlots il : Nat)
    (s : SlotBanks ρ) : Prop where
  bank : ∃ old, s.l1.mixedBank il = some old
  stride : strideRefused (env.expertStride il) targetSlots = false
  alloc : io.alloc = true
  prepare : io.prepare = true
  views : io.views = true
  contents : io.contents = true ∨
    residents env.nExpert (s.l1.layer env.nExpert fromSlots il) fromSlots = []

/-- The rows and the bank a ready layer is left with. -/
def carriedRows (env : ShrinkEnv ρ) (io : ShrinkIo ρ) (fromSlots targetSlots il : Nat)
    (s : SlotBanks ρ) (old : SlotBytes ρ) : FlatLevel ρ × SlotBytes ρ × Bool :=
  carrySlots env.nExpert targetSlots il old io.write 0
    (selectHotSlots env.nExpert (s.l1.layer env.nExpert fromSlots il) fromSlots targetSlots)
    (s.l1.resetRows env.nExpert targetSlots il) ⟨targetSlots, io.fresh⟩

/-- **One layer**: refused before anything changes, or carried as far as the writes go. -/
theorem carryLayer_cases (env : ShrinkEnv ρ) (io : ShrinkIo ρ) (fromSlots il : Nat)
    (s : SlotBanks ρ) (hpos : 0 < targetSlots) :
    (¬ CarryReady env io fromSlots targetSlots il s ∧
      carryLayer env io fromSlots targetSlots il s = (s, false)) ∨
    (CarryReady env io fromSlots targetSlots il s ∧ ∃ old, s.l1.mixedBank il = some old ∧
      carryLayer env io fromSlots targetSlots il s =
        let r := carriedRows env io fromSlots targetSlots il s old
        if r.2.2 then
          ({ s with l1 :=
              { r.1 with mixedBank := Function.update r.1.mixedBank il (some r.2.1) } }, true)
        else ({ s with l1 := r.1 }, false)) := by
  have hempty : (selectHotSlots env.nExpert (s.l1.layer env.nExpert fromSlots il) fromSlots
      targetSlots).isEmpty = true ↔ _ := selectHotSlots_isEmpty hpos
  unfold carryLayer
  cases hold : s.l1.mixedBank il with
  | none =>
    left
    refine ⟨?_, rfl⟩
    rintro ⟨⟨old, hbank⟩, -⟩
    rw [hold] at hbank
    exact absurd hbank (by simp)
  | some old =>
    dsimp only
    split
    · next hst => exact Or.inl ⟨fun h => absurd h.stride (by simp [hst]), rfl⟩
    · next hst =>
      split
      · next ha => exact Or.inl ⟨fun h => absurd h.alloc (by simpa using ha), rfl⟩
      · next ha =>
        split
        · next hp => exact Or.inl ⟨fun h => absurd h.prepare (by simpa using hp), rfl⟩
        · next hp =>
          split
          · next hv => exact Or.inl ⟨fun h => absurd h.views (by simpa using hv), rfl⟩
          · next hv =>
            split
            · next hc =>
              simp only [Bool.and_eq_true, Bool.not_eq_true'] at hc
              refine Or.inl ⟨fun h => ?_, rfl⟩
              obtain hcon | hnil := h.contents
              · exact absurd hcon (by simp [hc.1])
              · exact absurd (hempty.mpr hnil) (by simp [hc.2])
            · next hc =>
              right
              refine ⟨⟨⟨old, hold⟩, by simpa using hst, by simpa using ha, by simpa using hp,
                by simpa using hv, ?_⟩, old, rfl, rfl⟩
              simp only [Bool.and_eq_true, Bool.not_eq_true', not_and, Bool.not_eq_false] at hc
              cases hcon : io.contents with
              | true => exact Or.inl rfl
              | false => exact Or.inr (hempty.mp (hc hcon))

/-- What a list of selected records leaves in the rows of the old level, once they are reset and
    written at the new stride. -/
theorem carriedRows_spec {nExpert slots fromSlots il : Nat} {lv : FlatLevel ρ}
    {record : Nat → ρ} {old new : SlotBytes ρ} {write : Nat → Bool} {kept : List CarrySlot}
    {n : Nat} {base : FlatLevel ρ}
    (hdone : (carrySlots nExpert slots il old write 0 kept base new).2.2 = true)
    (hco : (lv.layer nExpert fromSlots il).Coherent nExpert fromSlots record)
    (hold : lv.mixedBank il = some old)
    (hsub : kept.Sublist (selectHotSlots nExpert (lv.layer nExpert fromSlots il) fromSlots n))
    (hfits : kept.length ≤ slots) (hroom : new.slots = slots)
    (hblank : FlatLevel.Blank nExpert slots il base) :
    let r := carrySlots nExpert slots il old write 0 kept base new
    let lv' := { r.1 with mixedBank := Function.update r.1.mixedBank il (some r.2.1) }
    FlatLevel.RowOnly nExpert slots il base lv' ∧
      Carried nExpert slots record kept (lv'.layer nExpert slots il) := by
  intro r lv'
  have hnodup : (kept.map CarrySlot.expert).Nodup :=
    List.Nodup.sublist (hsub.map _) (selectHotSlots_nodup hco)
  have hbounded : ∀ c ∈ kept, c.expert < nExpert :=
    fun c hc => selectHotSlots_bounded (hsub.subset hc)
  have hlaid := carrySlots_laid hnodup hdone
  refine ⟨(hlaid.rowOnly hfits hbounded).trans (FlatLevel.RowOnly.setBank _), ?_⟩
  exact hlaid.carried hblank hnodup hfits hbounded hroom
    fun c hc => selectHotSlots_record hco hold (hsub.subset hc)

/-- **A layer that succeeds** carries the hottest records of its old row. -/
theorem carryLayer_step {io : ShrinkIo ρ} {fromSlots il : Nat} {s : SlotBanks ρ}
    (hpos : 0 < targetSlots)
    (hco : (s.l1.layer env.nExpert fromSlots il).Coherent env.nExpert fromSlots (env.record il))
    (hok : (carryLayer env io fromSlots targetSlots il s).2 = true) :
    let s' := (carryLayer env io fromSlots targetSlots il s).1
    s'.gpuL2 = s.gpuL2 ∧ FlatLevel.RowOnly env.nExpert targetSlots il s.l1 s'.l1 ∧
      Carried env.nExpert targetSlots (env.record il)
        (selectHotSlots env.nExpert (s.l1.layer env.nExpert fromSlots il) fromSlots targetSlots)
        (s'.l1.layer env.nExpert targetSlots il) := by
  intro s'
  obtain ⟨-, hstop⟩ | ⟨-, old, hold, hrun⟩ := carryLayer_cases env io fromSlots il s hpos
  · rw [hstop] at hok
    exact absurd hok (by simp)
  · have hdone : (carriedRows env io fromSlots targetSlots il s old).2.2 = true := by
      rw [hrun] at hok
      dsimp only at hok
      split at hok
      · assumption
      · exact absurd hok (by simp)
    have hs' : s' = { s with l1 :=
        { (carriedRows env io fromSlots targetSlots il s old).1 with
          mixedBank := Function.update
            (carriedRows env io fromSlots targetSlots il s old).1.mixedBank il
            (some (carriedRows env io fromSlots targetSlots il s old).2.1) } } := by
      show (carryLayer env io fromSlots targetSlots il s).1 = _
      rw [hrun]
      dsimp only
      rw [if_pos hdone]
    obtain ⟨hrow, hcarried⟩ := carriedRows_spec hdone hco hold (List.Sublist.refl _)
      selectHotSlots_length_le rfl (FlatLevel.resetRows_blank _ _ _ _)
    rw [hs']
    exact ⟨rfl, (FlatLevel.RowOnly.resetRows _).trans hrow, hcarried⟩

/-- What holds before layer `il`: the rows below are carried, the others are still the old
    ones. -/
structure CarryInv (env : ShrinkEnv ρ) (s₀ : SlotBanks ρ) (fromSlots targetSlots il : Nat)
    (s : SlotBanks ρ) : Prop where
  carried : ∀ j < il, Carried env.nExpert targetSlots (env.record j)
    (selectHotSlots env.nExpert (s₀.l1.layer env.nExpert fromSlots j) fromSlots targetSlots)
    (s.l1.layer env.nExpert targetSlots j)
  ahead : ∀ j, il ≤ j → Level.Same env.nExpert fromSlots
    (s₀.l1.layer env.nExpert fromSlots j) (s.l1.layer env.nExpert fromSlots j)
  bank : ∀ j, il ≤ j → s.l1.mixedBank j = s₀.l1.mixedBank j
  gpuL2 : s.gpuL2 = s₀.gpuL2

theorem Level.Coherent.congr {nExpert slots : Nat} {record : Nat → ρ} {a b : Level (Option ρ)}
    (h : a.Coherent nExpert slots record) (hs : Level.Same nExpert slots a b) :
    b.Coherent nExpert slots record where
  named := by
    intro s hlt e he
    rw [hs.slot s hlt] at he
    obtain ⟨h1, h2, h3⟩ := h.named s hlt e he
    exact ⟨h1, (hs.expert e h1).trans h2, (hs.bytes s hlt).trans h3⟩
  mapped := by
    intro e he s hse
    rw [hs.expert e he] at hse
    obtain ⟨h1, h2⟩ := h.mapped e he s hse
    exact ⟨h1, (hs.slot s h1).trans h2⟩

theorem CarryInv.step {io : Nat → ShrinkIo ρ} {s₀ s : SlotBanks ρ} {il : Nat}
    (hpos : 0 < targetSlots) (hlt : targetSlots < s₀.l1.slotBank) (hco : s₀.l1.Coherent env)
    (hil : il < env.nLayer)
    (h : CarryInv env s₀ s₀.l1.slotBank targetSlots il s)
    (hok : (carryLayer env (io il) s₀.l1.slotBank targetSlots il s).2 = true) :
    CarryInv env s₀ s₀.l1.slotBank targetSlots (il + 1)
      (carryLayer env (io il) s₀.l1.slotBank targetSlots il s).1 := by
  have hrow := h.ahead il (le_refl il)
  obtain ⟨hl2, honly, hcarried⟩ := carryLayer_step hpos ((hco il hil).congr hrow) hok
  refine ⟨?_, ?_, ?_, hl2.trans h.gpuL2⟩
  · intro j hj
    obtain hj | rfl := Nat.lt_succ_iff_lt_or_eq.mp hj
    · exact (h.carried j hj).congr (honly.before hj)
    · rwa [selectHotSlots_congr hrow] at hcarried
  · intro j hj
    exact (h.ahead j (by omega)).trans (honly.after (by omega) (le_of_lt hlt))
  · intro j hj
    rw [honly.bank j (by omega)]
    exact h.bank j (by omega)

end Carry

/-! ### The splitting shrink -/

section Split

variable {env : ShrinkEnv ρ} {targetSlots : Nat}

/-- The checks and calls of layer `il` that come before its rows are reset go through. -/
structure SplitReady (env : ShrinkEnv ρ) (io : ShrinkIo ρ) (fromSlots targetSlots il : Nat)
    (s : SlotBanks ρ) : Prop where
  bank : ∃ old, s.l1.mixedBank il = some old
  stride : strideRefused (env.expertStride il) targetSlots = false
  strideL2 : strideRefused (env.expertStride il) (fromSlots - targetSlots) = false
  alloc : io.alloc = true ∧ io.allocL2 = true
  prepare : io.prepare = true ∧ io.prepareL2 = true
  views : io.views = true
  contents : io.contents = true ∨
    residents env.nExpert (s.l1.layer env.nExpert fromSlots il) fromSlots = []

/-- All residents of layer `il`, hottest first. -/
def splitSelected (env : ShrinkEnv ρ) (fromSlots il : Nat) (s : SlotBanks ρ) : List CarrySlot :=
  selectHotSlots env.nExpert (s.l1.layer env.nExpert fromSlots il) fromSlots fromSlots

/-- The L1 rows and bank a ready layer is left with. -/
def splitL1 (env : ShrinkEnv ρ) (io : ShrinkIo ρ) (fromSlots targetSlots il : Nat)
    (s : SlotBanks ρ) (old : SlotBytes ρ) : FlatLevel ρ × SlotBytes ρ × Bool :=
  carrySlots env.nExpert targetSlots il old io.write 0
    ((splitSelected env fromSlots il s).take targetSlots)
    (s.l1.resetRows env.nExpert targetSlots il) ⟨targetSlots, io.fresh⟩

/-- The L2 rows and bank a ready layer is left with. -/
def splitL2 (env : ShrinkEnv ρ) (io : ShrinkIo ρ) (fromSlots targetSlots il : Nat)
    (s : SlotBanks ρ) (old : SlotBytes ρ) : FlatLevel ρ × SlotBytes ρ × Bool :=
  carrySlots env.nExpert s.gpuL2.slotBank il old io.writeL2 0
    (((splitSelected env fromSlots il s).drop targetSlots).take (fromSlots - targetSlots))
    s.gpuL2 ⟨fromSlots - targetSlots, io.freshL2⟩

/-- **One layer**: refused before anything changes, or split as far as the writes go. -/
theorem splitLayer_cases (env : ShrinkEnv ρ) (io : ShrinkIo ρ) (fromSlots targetSlots il : Nat)
    (s : SlotBanks ρ) (hpos : 0 < fromSlots) :
    (¬ SplitReady env io fromSlots targetSlots il s ∧
      splitLayer env io fromSlots targetSlots il s = (s, false)) ∨
    (SplitReady env io fromSlots targetSlots il s ∧ ∃ old, s.l1.mixedBank il = some old ∧
      splitLayer env io fromSlots targetSlots il s =
        let r := splitL1 env io fromSlots targetSlots il s old
        let r₂ := splitL2 env io fromSlots targetSlots il s old
        if !r.2.2 then ({ s with l1 := r.1 }, false)
        else if !r₂.2.2 then ({ s with l1 := r.1, gpuL2 := r₂.1 }, false)
        else
          ({ s with
            l1 := { r.1 with mixedBank := Function.update r.1.mixedBank il (some r.2.1) }
            gpuL2 :=
              { r₂.1 with mixedBank := Function.update r₂.1.mixedBank il (some r₂.2.1) } },
            true)) := by
  have hempty : (splitSelected env fromSlots il s).isEmpty = true ↔ _ :=
    selectHotSlots_isEmpty hpos
  unfold splitLayer
  cases hold : s.l1.mixedBank il with
  | none =>
    left
    refine ⟨?_, rfl⟩
    rintro ⟨⟨old, hbank⟩, -⟩
    rw [hold] at hbank
    exact absurd hbank (by simp)
  | some old =>
    dsimp only
    by_cases hst : (strideRefused (env.expertStride il) targetSlots ||
        strideRefused (env.expertStride il) (fromSlots - targetSlots)) = true
    · rw [if_pos hst]
      refine Or.inl ⟨fun h => ?_, rfl⟩
      rw [h.stride, h.strideL2] at hst
      exact absurd hst (by simp)
    rw [if_neg hst]
    rw [Bool.or_eq_true, not_or, Bool.not_eq_true, Bool.not_eq_true] at hst
    by_cases ha : (!io.alloc || !io.allocL2) = true
    · rw [if_pos ha]
      refine Or.inl ⟨fun h => ?_, rfl⟩
      rw [h.alloc.1, h.alloc.2] at ha
      exact absurd ha (by simp)
    rw [if_neg ha]
    by_cases hp : (!io.prepare) = true
    · rw [if_pos hp]
      exact Or.inl ⟨fun h => absurd h.prepare.1 (by simpa using hp), rfl⟩
    rw [if_neg hp]
    by_cases hp₂ : (!io.prepareL2) = true
    · rw [if_pos hp₂]
      exact Or.inl ⟨fun h => absurd h.prepare.2 (by simpa using hp₂), rfl⟩
    rw [if_neg hp₂]
    by_cases hv : (!io.views) = true
    · rw [if_pos hv]
      exact Or.inl ⟨fun h => absurd h.views (by simpa using hv), rfl⟩
    rw [if_neg hv]
    by_cases hc : (!io.contents && !(splitSelected env fromSlots il s).isEmpty) = true
    · left
      refine ⟨fun h => ?_, if_pos hc⟩
      simp only [Bool.and_eq_true, Bool.not_eq_true'] at hc
      obtain hcon | hnil := h.contents
      · exact absurd hcon (by simp [hc.1])
      · exact absurd (hempty.mpr hnil) (by simp [hc.2])
    · right
      refine ⟨⟨⟨old, hold⟩, hst.1, hst.2, by simpa using ha, ⟨by simpa using hp,
        by simpa using hp₂⟩, by simpa using hv, ?_⟩, old, rfl, if_neg hc⟩
      simp only [Bool.and_eq_true, Bool.not_eq_true', not_and, Bool.not_eq_false] at hc
      cases hcon : io.contents with
      | true => exact Or.inl rfl
      | false => exact Or.inr (hempty.mp (hc hcon))

theorem splitSelected_length_le (env : ShrinkEnv ρ) (fromSlots il : Nat) (s : SlotBanks ρ) :
    (splitSelected env fromSlots il s).length ≤ fromSlots :=
  selectHotSlots_length_le

/-- What does not fit into L1 fits into L2. -/
theorem splitSelected_drop (env : ShrinkEnv ρ) (fromSlots targetSlots il : Nat)
    (s : SlotBanks ρ) :
    ((splitSelected env fromSlots il s).drop targetSlots).take (fromSlots - targetSlots) =
      (splitSelected env fromSlots il s).drop targetSlots := by
  apply List.take_of_length_le
  have := splitSelected_length_le env fromSlots il s
  rw [List.length_drop]
  omega

/-- **A layer that succeeds** carries the hottest records in L1 and the others in L2. -/
theorem splitLayer_step {io : ShrinkIo ρ} {fromSlots il : Nat} {s : SlotBanks ρ}
    (hpos : 0 < fromSlots) (hl2 : s.gpuL2.slotBank = fromSlots - targetSlots)
    (hblank : FlatLevel.Blank env.nExpert (fromSlots - targetSlots) il s.gpuL2)
    (hco : (s.l1.layer env.nExpert fromSlots il).Coherent env.nExpert fromSlots (env.record il))
    (hok : (splitLayer env io fromSlots targetSlots il s).2 = true) :
    let s' := (splitLayer env io fromSlots targetSlots il s).1
    (FlatLevel.RowOnly env.nExpert targetSlots il s.l1 s'.l1 ∧
      FlatLevel.RowOnly env.nExpert (fromSlots - targetSlots) il s.gpuL2 s'.gpuL2) ∧
    Carried env.nExpert targetSlots (env.record il)
      ((splitSelected env fromSlots il s).take targetSlots)
      (s'.l1.layer env.nExpert targetSlots il) ∧
    Carried env.nExpert (fromSlots - targetSlots) (env.record il)
      ((splitSelected env fromSlots il s).drop targetSlots)
      (s'.gpuL2.layer env.nExpert (fromSlots - targetSlots) il) := by
  intro s'
  obtain ⟨-, hstop⟩ | ⟨-, old, hold, hrun⟩ :=
    splitLayer_cases env io fromSlots targetSlots il s hpos
  · rw [hstop] at hok
    exact absurd hok (by simp)
  · have hdone : (splitL1 env io fromSlots targetSlots il s old).2.2 = true ∧
        (splitL2 env io fromSlots targetSlots il s old).2.2 = true := by
      rw [hrun] at hok
      dsimp only at hok
      split at hok
      · exact absurd hok (by simp)
      · next h1 =>
        split at hok
        · exact absurd hok (by simp)
        · next h2 => exact ⟨by simpa using h1, by simpa using h2⟩
    have hs' : s' = { s with
        l1 := { (splitL1 env io fromSlots targetSlots il s old).1 with
          mixedBank := Function.update (splitL1 env io fromSlots targetSlots il s old).1.mixedBank
            il (some (splitL1 env io fromSlots targetSlots il s old).2.1) }
        gpuL2 := { (splitL2 env io fromSlots targetSlots il s old).1 with
          mixedBank := Function.update (splitL2 env io fromSlots targetSlots il s old).1.mixedBank
            il (some (splitL2 env io fromSlots targetSlots il s old).2.1) } } := by
      show (splitLayer env io fromSlots targetSlots il s).1 = _
      rw [hrun]
      dsimp only
      rw [hdone.1, hdone.2]
      rfl
    obtain ⟨hrow, hcarried⟩ := carriedRows_spec hdone.1 hco hold (List.take_sublist _ _)
      (List.length_take_le _ _) rfl (FlatLevel.resetRows_blank _ _ _ _)
    have hdone₂ := hdone.2
    unfold splitL2 at hdone₂
    rw [hl2, splitSelected_drop] at hdone₂
    obtain ⟨hrow₂, hcarried₂⟩ := carriedRows_spec hdone₂ hco hold (List.drop_sublist _ _)
      (by
        have := splitSelected_length_le env fromSlots il s
        rw [List.length_drop]
        omega) rfl hblank
    rw [hs']
    unfold splitL2
    rw [hl2, splitSelected_drop]
    exact ⟨⟨(FlatLevel.RowOnly.resetRows _).trans hrow, hrow₂⟩, hcarried, hcarried₂⟩

/-- What holds before layer `il`: the rows below are split, the others are still the old ones,
    with nothing in L2. -/
structure SplitInv (env : ShrinkEnv ρ) (s₀ : SlotBanks ρ) (fromSlots targetSlots il : Nat)
    (s : SlotBanks ρ) : Prop where
  carried : ∀ j < il, Carried env.nExpert targetSlots (env.record j)
    ((splitSelected env fromSlots j s₀).take targetSlots) (s.l1.layer env.nExpert targetSlots j)
  carriedL2 : ∀ j < il, Carried env.nExpert (fromSlots - targetSlots) (env.record j)
    ((splitSelected env fromSlots j s₀).drop targetSlots)
    (s.gpuL2.layer env.nExpert (fromSlots - targetSlots) j)
  ahead : ∀ j, il ≤ j → Level.Same env.nExpert fromSlots
    (s₀.l1.layer env.nExpert fromSlots j) (s.l1.layer env.nExpert fromSlots j)
  bank : ∀ j, il ≤ j → s.l1.mixedBank j = s₀.l1.mixedBank j
  blank : ∀ j, il ≤ j → FlatLevel.Blank env.nExpert (fromSlots - targetSlots) j s.gpuL2
  slots : s.gpuL2.slotBank = fromSlots - targetSlots

theorem FlatLevel.Blank.congr {nExpert stride il : Nat} {lv lv' : FlatLevel ρ}
    (h : FlatLevel.Blank nExpert stride il lv)
    (hs : Level.Same nExpert stride (lv.layer nExpert stride il) (lv'.layer nExpert stride il)) :
    FlatLevel.Blank nExpert stride il lv' where
  slot := fun s hlt => (hs.slot s hlt).trans (h.slot s hlt)
  age := fun s hlt => (hs.age s hlt).trans (h.age s hlt)
  expert := fun e he => (hs.expert e he).trans (h.expert e he)

theorem SplitInv.step {io : Nat → ShrinkIo ρ} {s₀ s : SlotBanks ρ} {il : Nat}
    (hlt : targetSlots < s₀.l1.slotBank) (hco : s₀.l1.Coherent env) (hil : il < env.nLayer)
    (h : SplitInv env s₀ s₀.l1.slotBank targetSlots il s)
    (hok : (splitLayer env (io il) s₀.l1.slotBank targetSlots il s).2 = true) :
    SplitInv env s₀ s₀.l1.slotBank targetSlots (il + 1)
      (splitLayer env (io il) s₀.l1.slotBank targetSlots il s).1 := by
  have hrow := h.ahead il (le_refl il)
  obtain ⟨⟨honly, honly₂⟩, hcarried, hcarried₂⟩ := splitLayer_step (by omega) h.slots
    (h.blank il (le_refl il)) ((hco il hil).congr hrow) hok
  have hselected : splitSelected env s₀.l1.slotBank il s =
      splitSelected env s₀.l1.slotBank il s₀ := selectHotSlots_congr hrow
  rw [hselected] at hcarried hcarried₂
  refine ⟨?_, ?_, ?_, ?_, ?_, honly₂.slots.trans h.slots⟩
  · intro j hj
    obtain hj | rfl := Nat.lt_succ_iff_lt_or_eq.mp hj
    · exact (h.carried j hj).congr (honly.before hj)
    · exact hcarried
  · intro j hj
    obtain hj | rfl := Nat.lt_succ_iff_lt_or_eq.mp hj
    · exact (h.carriedL2 j hj).congr (honly₂.before hj)
    · exact hcarried₂
  · intro j hj
    exact (h.ahead j (by omega)).trans (honly.after (by omega) (le_of_lt hlt))
  · intro j hj
    rw [honly.bank j (by omega)]
    exact h.bank j (by omega)
  · intro j hj
    exact (h.blank j (by omega)).congr (honly₂.after (by omega) (le_refl _))

end Split

/-! ### Whole shrinks -/

section Shrinks

variable {env : ShrinkEnv ρ} {io : Nat → ShrinkIo ρ} {s : SlotBanks ρ} {targetSlots : Nat}

/-- The residents of layer `il`. -/
def SlotBanks.residents (env : ShrinkEnv ρ) (s : SlotBanks ρ) (il : Nat) : List CarrySlot :=
  FlashMoe.residents env.nExpert (s.l1.layer env.nExpert s.l1.slotBank il) s.l1.slotBank

/-- `kept` are the most recently used `n` of `all`, or all of them. -/
def Hottest (n : Nat) (all kept : List CarrySlot) : Prop :=
  Lib.TopOf (fun c => c.age.toNat) n all kept

/-- What a carrying shrink promises. -/
structure ShrunkByCarry (env : ShrinkEnv ρ) (s s' : SlotBanks ρ) (targetSlots : Nat) : Prop where
  slots : s'.l1.slotBank = targetSlots
  carried : ∀ il < env.nLayer, ∃ kept, Hottest targetSlots (s.residents env il) kept ∧
    Carried env.nExpert targetSlots (env.record il) kept
      (s'.l1.layer env.nExpert targetSlots il)
  coherent : s'.Coherent env

/-- What a splitting shrink promises. -/
structure ShrunkBySplit (env : ShrinkEnv ρ) (s s' : SlotBanks ρ) (targetSlots : Nat) : Prop where
  slots : s'.l1.slotBank = targetSlots
  slotsL2 : s'.gpuL2.slotBank = s.l1.slotBank - targetSlots
  carried : ∀ il < env.nLayer, ∃ kept next, Hottest targetSlots (s.residents env il) kept ∧
    (kept ++ next).Perm (s.residents env il) ∧
    Carried env.nExpert targetSlots (env.record il) kept
      (s'.l1.layer env.nExpert targetSlots il) ∧
    Carried env.nExpert (s.l1.slotBank - targetSlots) (env.record il) next
      (s'.gpuL2.layer env.nExpert (s.l1.slotBank - targetSlots) il)
  /-- No expert is in both levels. -/
  disjoint : ∀ il < env.nLayer, ∀ e < env.nExpert,
    (s'.l1.layer env.nExpert targetSlots il).expertToSlot e = none ∨
    (s'.gpuL2.layer env.nExpert (s.l1.slotBank - targetSlots) il).expertToSlot e = none
  coherent : s'.Coherent env

/-- The carrying shrink is refused, or stops before it resets the rows of layer 0, or every
    layer gets its bank and its records. -/
def CarryLands (env : ShrinkEnv ρ) (io : Nat → ShrinkIo ρ) (s : SlotBanks ρ)
    (targetSlots : Nat) : Prop :=
  s.shrinkRefused s.l1.slotBank targetSlots = true ∨ MAX_EXPERT < targetSlots ∨
  ¬ CarryReady env (io 0) s.l1.slotBank targetSlots 0 s ∨
  ∀ il < env.nLayer, CarryReady env (io il) s.l1.slotBank targetSlots il s ∧
    ∀ t < min targetSlots (s.residents env il).length, (io il).write t = true

/-- The splitting shrink is refused, or stops before it resets the rows of layer 0, or every
    layer gets its banks and its records. -/
def SplitLands (env : ShrinkEnv ρ) (io : Nat → ShrinkIo ρ) (s : SlotBanks ρ)
    (targetSlots : Nat) : Prop :=
  s.shrinkRefused s.l1.slotBank targetSlots = true ∨
  mapsRefused env (s.l1.slotBank - targetSlots) = true ∨
  ¬ SplitReady env (io 0) s.l1.slotBank targetSlots 0 s ∨
  ∀ il < env.nLayer, SplitReady env (io il) s.l1.slotBank targetSlots il s ∧
    (∀ t < min targetSlots (s.residents env il).length, (io il).write t = true) ∧
    ∀ t < (s.residents env il).length - targetSlots, (io il).writeL2 t = true

theorem not_shrinkRefused {fromSlots : Nat}
    (h : ¬ s.shrinkRefused fromSlots targetSlots = true) :
    0 < targetSlots ∧ targetSlots < fromSlots := by
  unfold SlotBanks.shrinkRefused at h
  simp only [Bool.or_eq_true, decide_eq_true_eq, not_or] at h
  omega

theorem CarryInv.start (env : ShrinkEnv ρ) (s : SlotBanks ρ) (fromSlots targetSlots : Nat) :
    CarryInv env s fromSlots targetSlots 0 s where
  carried := fun _ hj => absurd hj (Nat.not_lt_zero _)
  ahead := fun _ _ => Level.Same.refl _
  bank := fun _ _ => rfl
  gpuL2 := rfl

/-- After the last layer the slot count follows, and the promise holds. -/
theorem CarryInv.shrunk {s' : SlotBanks ρ} (hco : s.Coherent env)
    (h : CarryInv env s s.l1.slotBank targetSlots env.nLayer s') :
    ShrunkByCarry env s { s' with l1 := { s'.l1 with slotBank := targetSlots } } targetSlots where
  slots := rfl
  carried := fun il hil => ⟨_, selectHotSlots_topOf _ _ _ _, h.carried il hil⟩
  coherent := by
    refine ⟨fun il hil => (h.carried il hil).coherent, ?_⟩
    show s'.gpuL2.Coherent env
    rw [h.gpuL2]
    exact hco.2

/-- A layer that is ready at the start is ready when its turn comes, and its writes are those of
    the records it keeps. -/
theorem CarryInv.done {s' : SlotBanks ρ} {il : Nat} (hpos : 0 < targetSlots)
    (h : CarryInv env s s.l1.slotBank targetSlots il s')
    (hready : CarryReady env (io il) s.l1.slotBank targetSlots il s)
    (hw : ∀ t < min targetSlots (s.residents env il).length, (io il).write t = true) :
    (carryLayer env (io il) s.l1.slotBank targetSlots il s').2 = true := by
  have hrow := h.ahead il (le_refl il)
  have hbank := h.bank il (le_refl il)
  obtain ⟨hstop, -⟩ | ⟨-, old, -, hrun⟩ :=
    carryLayer_cases env (io il) s.l1.slotBank il s' hpos
  · refine absurd ⟨?_, hready.stride, hready.alloc, hready.prepare, hready.views, ?_⟩ hstop
    · rw [hbank]
      exact hready.bank
    · rw [residents_congr hrow]
      exact hready.contents
  · have hdone : (carriedRows env (io il) s.l1.slotBank targetSlots il s' old).2.2 = true := by
      apply carrySlots_done
      intro t ht
      rw [Nat.zero_add]
      apply hw
      rwa [(selectHotSlots_topOf _ _ _ _).length, residents_congr hrow] at ht
    rw [hrun]
    dsimp only
    rw [if_pos hdone]

/-- **Carry, success.** -/
theorem shrinkSlotBanksCarry_success (hco : s.Coherent env)
    (hok : (shrinkSlotBanksCarry env io s s.l1.slotBank targetSlots).2 = true) :
    ShrunkByCarry env s (shrinkSlotBanksCarry env io s s.l1.slotBank targetSlots).1
      targetSlots := by
  unfold shrinkSlotBanksCarry at hok ⊢
  split at hok
  · exact absurd hok (by simp)
  · next href =>
    rw [if_neg href]
    rw [Bool.or_eq_true, not_or] at href
    obtain ⟨hpos, hlt⟩ := not_shrinkRefused href.1
    dsimp only at hok ⊢
    split at hok
    · next hloop =>
      rw [if_pos hloop]
      apply CarryInv.shrunk hco
      exact eachLayer_invariant (fun il hil s' h hf => h.step hpos hlt hco.1 hil hf)
        (Nat.zero_add _) (CarryInv.start env s _ _) hloop
    · next hloop => exact absurd hok hloop

/-- **Carry, failure.** A call that lands leaves the banks as they were when it fails. -/
theorem shrinkSlotBanksCarry_failure (hco : s.Coherent env)
    (hlands : CarryLands env io s targetSlots)
    (hfail : (shrinkSlotBanksCarry env io s s.l1.slotBank targetSlots).2 = false) :
    (shrinkSlotBanksCarry env io s s.l1.slotBank targetSlots).1.Coherent env := by
  unfold shrinkSlotBanksCarry at hfail ⊢
  split at hfail
  · next href =>
    rw [if_pos href]
    exact hco
  · next href =>
    rw [if_neg href]
    rw [Bool.or_eq_true, not_or, decide_eq_true_eq] at href
    obtain ⟨hpos, hlt⟩ := not_shrinkRefused href.1
    dsimp only at hfail ⊢
    split at hfail
    · exact absurd hfail (by simp)
    · next hloop =>
      rw [if_neg hloop]
      obtain href' | hmax | hstop | hall := hlands
      · exact absurd href' href.1
      · exact absurd hmax href.2
      · -- layer 0 stops before its rows are reset
        obtain ⟨-, hrefused⟩ | ⟨hready, -⟩ :=
          carryLayer_cases env (io 0) s.l1.slotBank 0 s hpos
        · obtain h0 | hn := Nat.eq_zero_or_pos env.nLayer
          · rw [h0] at hloop
            exact absurd rfl hloop
          · have hstops : eachLayer (fun il => carryLayer env (io il) s.l1.slotBank targetSlots il)
                0 env.nLayer s = (s, false) := eachLayer_stops hn hrefused
            rw [hstops]
            exact hco
        · exact absurd hready hstop
      · refine absurd ?_ hloop
        exact eachLayer_done (fun il hil s' h hf => h.step hpos hlt hco.1 hil hf)
          (fun il hil s' h => h.done hpos (hall il hil).1 (hall il hil).2)
          (Nat.zero_add _) (CarryInv.start env s _ _)

/-- The state the loop of the splitting shrink starts from. -/
def splitStart (s : SlotBanks ρ) (targetSlots : Nat) : SlotBanks ρ :=
  { s with gpuL2 := { FlatLevel.empty with slotBank := s.l1.slotBank - targetSlots } }

theorem splitStart_coherent (hco : s.Coherent env) :
    (splitStart s targetSlots).Coherent env := by
  refine ⟨hco.1, fun il _ => ⟨?_, ?_⟩⟩
  · intro slot _ e he
    exact absurd he (by simp [splitStart, FlatLevel.layer, FlatLevel.empty])
  · intro e _ slot he
    exact absurd he (by simp [splitStart, FlatLevel.layer, FlatLevel.empty])

theorem SplitInv.start (env : ShrinkEnv ρ) (s : SlotBanks ρ) (targetSlots : Nat) :
    SplitInv env s s.l1.slotBank targetSlots 0 (splitStart s targetSlots) where
  carried := fun _ hj => absurd hj (Nat.not_lt_zero _)
  carriedL2 := fun _ hj => absurd hj (Nat.not_lt_zero _)
  ahead := fun _ _ => Level.Same.refl _
  bank := fun _ _ => rfl
  blank := fun _ _ => ⟨fun _ _ => rfl, fun _ _ => rfl, fun _ _ => rfl⟩
  slots := rfl

/-- After the last layer the slot count follows, and the promise holds. -/
theorem SplitInv.shrunk {s' : SlotBanks ρ} (hco : s.Coherent env)
    (hlt : targetSlots < s.l1.slotBank)
    (h : SplitInv env s s.l1.slotBank targetSlots env.nLayer s') :
    ShrunkBySplit env s { s' with l1 := { s'.l1 with slotBank := targetSlots } } targetSlots where
  slots := rfl
  slotsL2 := h.slots
  carried := by
    intro il hil
    have htop := selectHotSlots_topOf env.nExpert (s.l1.layer env.nExpert s.l1.slotBank il)
      s.l1.slotBank s.l1.slotBank
    refine ⟨_, _, htop.take (le_of_lt hlt), ?_, h.carried il hil, h.carriedL2 il hil⟩
    rw [splitSelected, selectHotSlots, List.take_append_drop]
    exact htop.perm residents_length_le
  disjoint := by
    intro il hil e he
    have hnodup : ((splitSelected env s.l1.slotBank il s).map CarrySlot.expert).Nodup :=
      selectHotSlots_nodup (hco.1 il hil)
    cases h1 : (s'.l1.layer env.nExpert targetSlots il).expertToSlot e with
    | none => exact Or.inl h1
    | some slot =>
      right
      cases h2 : (s'.gpuL2.layer env.nExpert (s.l1.slotBank - targetSlots) il).expertToSlot e with
      | none => rfl
      | some slot₂ =>
        -- the list would name the expert twice
        have hk := ((h.carried il hil).expert e he slot).mp h1
        have hn := ((h.carriedL2 il hil).expert e he slot₂).mp h2
        rw [← List.getElem?_map, List.map_take] at hk
        rw [← List.getElem?_map, List.map_drop] at hn
        rw [← List.take_append_drop targetSlots (List.map _ _), List.nodup_append] at hnodup
        exact absurd rfl (hnodup.2.2 e (List.mem_of_getElem? hk) e (List.mem_of_getElem? hn))
  coherent := by
    refine ⟨fun il hil => (h.carried il hil).coherent, fun il hil => ?_⟩
    show (s'.gpuL2.layer env.nExpert s'.gpuL2.slotBank il).Coherent _ s'.gpuL2.slotBank _
    rw [h.slots]
    exact (h.carriedL2 il hil).coherent

/-- A layer that is ready at the start is ready when its turn comes, and its writes are those of
    the records it keeps. -/
theorem SplitInv.done {s' : SlotBanks ρ} {il : Nat} (hlt : targetSlots < s.l1.slotBank)
    (h : SplitInv env s s.l1.slotBank targetSlots il s')
    (hready : SplitReady env (io il) s.l1.slotBank targetSlots il s)
    (hw : ∀ t < min targetSlots (s.residents env il).length, (io il).write t = true)
    (hw₂ : ∀ t < (s.residents env il).length - targetSlots, (io il).writeL2 t = true) :
    (splitLayer env (io il) s.l1.slotBank targetSlots il s').2 = true := by
  have hrow := h.ahead il (le_refl il)
  have hbank := h.bank il (le_refl il)
  have hlen : (splitSelected env s.l1.slotBank il s').length = (s.residents env il).length := by
    have hle : (s.residents env il).length ≤ s.l1.slotBank := residents_length_le
    rw [splitSelected, (selectHotSlots_topOf _ _ _ _).length, residents_congr hrow]
    exact Nat.min_eq_right hle
  obtain ⟨hstop, -⟩ | ⟨-, old, -, hrun⟩ :=
    splitLayer_cases env (io il) s.l1.slotBank targetSlots il s' (by omega)
  · refine absurd ⟨?_, hready.stride, hready.strideL2, hready.alloc, hready.prepare,
      hready.views, ?_⟩ hstop
    · rw [hbank]
      exact hready.bank
    · rw [residents_congr hrow]
      exact hready.contents
  · have hdone : (splitL1 env (io il) s.l1.slotBank targetSlots il s' old).2.2 = true := by
      apply carrySlots_done
      intro t ht
      rw [Nat.zero_add]
      apply hw
      rwa [List.length_take, hlen] at ht
    have hdone₂ : (splitL2 env (io il) s.l1.slotBank targetSlots il s' old).2.2 = true := by
      apply carrySlots_done
      intro t ht
      rw [Nat.zero_add]
      apply hw₂
      rwa [splitSelected_drop, List.length_drop, hlen] at ht
    rw [hrun]
    dsimp only
    rw [hdone, hdone₂]
    rfl

/-- Tables that do not fit end the call, without an L2. -/
theorem shrinkSlotBanksGpuL2_maps (href : ¬ s.shrinkRefused s.l1.slotBank targetSlots = true)
    (hmaps : mapsRefused env (s.l1.slotBank - targetSlots) = true) :
    shrinkSlotBanksGpuL2 env io s s.l1.slotBank targetSlots =
      ({ s with gpuL2 := .empty }, false) := by
  have hlt := (not_shrinkRefused href).2
  have hinit : gpuL2InitMaps env s (s.l1.slotBank - targetSlots) =
      ({ s with gpuL2 := .empty }, false) := by
    unfold gpuL2InitMaps
    rw [if_neg (by omega), if_pos hmaps]
  unfold shrinkSlotBanksGpuL2
  rw [if_neg href, hinit]
  rfl

/-- What the call does once it is not refused. -/
theorem shrinkSlotBanksGpuL2_eq (href : ¬ s.shrinkRefused s.l1.slotBank targetSlots = true)
    (hmaps : ¬ mapsRefused env (s.l1.slotBank - targetSlots) = true) :
    shrinkSlotBanksGpuL2 env io s s.l1.slotBank targetSlots =
      let r := eachLayer (fun il => splitLayer env (io il) s.l1.slotBank targetSlots il) 0
        env.nLayer (splitStart s targetSlots)
      if r.2 then ({ r.1 with l1 := { r.1.l1 with slotBank := targetSlots } }, true) else r := by
  have hlt := (not_shrinkRefused href).2
  have hinit : gpuL2InitMaps env s (s.l1.slotBank - targetSlots) =
      (splitStart s targetSlots, true) := by
    unfold gpuL2InitMaps
    rw [if_neg (by omega), if_neg hmaps]
    rfl
  unfold shrinkSlotBanksGpuL2
  rw [if_neg href, hinit]
  rfl

/-- **Split, success.** -/
theorem shrinkSlotBanksGpuL2_success (hco : s.Coherent env)
    (hok : (shrinkSlotBanksGpuL2 env io s s.l1.slotBank targetSlots).2 = true) :
    ShrunkBySplit env s (shrinkSlotBanksGpuL2 env io s s.l1.slotBank targetSlots).1
      targetSlots := by
  by_cases href : s.shrinkRefused s.l1.slotBank targetSlots = true
  · rw [shrinkSlotBanksGpuL2, if_pos href] at hok
    exact absurd hok (by simp)
  obtain ⟨hpos, hlt⟩ := not_shrinkRefused href
  by_cases hmaps : mapsRefused env (s.l1.slotBank - targetSlots) = true
  · rw [shrinkSlotBanksGpuL2_maps href hmaps] at hok
    exact absurd hok (by simp)
  rw [shrinkSlotBanksGpuL2_eq href hmaps] at hok ⊢
  dsimp only at hok ⊢
  split at hok
  · next hloop =>
    rw [if_pos hloop]
    apply SplitInv.shrunk hco hlt
    exact eachLayer_invariant (fun il hil s' h hf => h.step hlt hco.1 hil hf)
      (Nat.zero_add _) (SplitInv.start env s _) hloop
  · next hloop => exact absurd hok hloop

/-- **Split, failure.** A call that lands leaves L1 as it was and nothing in L2 when it fails. -/
theorem shrinkSlotBanksGpuL2_failure (hco : s.Coherent env)
    (hlands : SplitLands env io s targetSlots)
    (hfail : (shrinkSlotBanksGpuL2 env io s s.l1.slotBank targetSlots).2 = false) :
    (shrinkSlotBanksGpuL2 env io s s.l1.slotBank targetSlots).1.Coherent env := by
  by_cases href : s.shrinkRefused s.l1.slotBank targetSlots = true
  · rw [shrinkSlotBanksGpuL2, if_pos href]
    exact hco
  obtain ⟨hpos, hlt⟩ := not_shrinkRefused href
  by_cases hmaps : mapsRefused env (s.l1.slotBank - targetSlots) = true
  · rw [shrinkSlotBanksGpuL2_maps href hmaps]
    refine ⟨hco.1, fun il _ => ⟨?_, ?_⟩⟩
    · intro slot hslot
      exact absurd hslot (Nat.not_lt_zero _)
    · intro e _ slot he
      exact absurd he (by simp [FlatLevel.layer, FlatLevel.empty])
  rw [shrinkSlotBanksGpuL2_eq href hmaps] at hfail ⊢
  dsimp only at hfail ⊢
  split at hfail
  · exact absurd hfail (by simp)
  · next hloop =>
    rw [if_neg hloop]
    obtain href' | hmaps' | hstop | hall := hlands
    · exact absurd href' href
    · exact absurd hmaps' hmaps
    · -- layer 0 stops before its rows are reset
      obtain ⟨-, hrefused⟩ | ⟨hready, -⟩ := splitLayer_cases env (io 0) s.l1.slotBank targetSlots 0
        (splitStart s targetSlots) (by omega)
      · obtain h0 | hn := Nat.eq_zero_or_pos env.nLayer
        · rw [h0] at hloop
          exact absurd rfl hloop
        · have hstops : eachLayer (fun il => splitLayer env (io il) s.l1.slotBank targetSlots il)
              0 env.nLayer (splitStart s targetSlots) = (splitStart s targetSlots, false) :=
            eachLayer_stops hn hrefused
          rw [hstops]
          exact splitStart_coherent hco
      · exact absurd ⟨hready.bank, hready.stride, hready.strideL2, hready.alloc, hready.prepare,
          hready.views, hready.contents⟩ hstop
    · refine absurd ?_ hloop
      exact eachLayer_done (fun il hil s' h hf => h.step hlt hco.1 hil hf)
        (fun il hil s' h => h.done hlt (hall il hil).1 (hall il hil).2.1 (hall il hil).2.2)
        (Nat.zero_add _) (SplitInv.start env s _)

/-- **Shrink.** A shrink that succeeds leaves the hottest records of every layer at the new
    stride; one that lands leaves coherent banks also when it fails. -/
theorem shrink_keeps_banks_coherent (env : ShrinkEnv ρ) (io : Nat → ShrinkIo ρ) (s : SlotBanks ρ)
    (targetSlots : Nat) (hco : s.Coherent env) :
    (let r := shrinkSlotBanksCarry env io s s.l1.slotBank targetSlots
     (r.2 = true → ShrunkByCarry env s r.1 targetSlots) ∧
     (CarryLands env io s targetSlots → r.2 = false → r.1.Coherent env)) ∧
    (let r := shrinkSlotBanksGpuL2 env io s s.l1.slotBank targetSlots
     (r.2 = true → ShrunkBySplit env s r.1 targetSlots) ∧
     (SplitLands env io s targetSlots → r.2 = false → r.1.Coherent env)) :=
  ⟨⟨shrinkSlotBanksCarry_success hco, shrinkSlotBanksCarry_failure hco⟩,
    shrinkSlotBanksGpuL2_success hco, shrinkSlotBanksGpuL2_failure hco⟩

end Shrinks

/-! ### A shrink that stops between two layers -/

/-- Two layers, two experts; the record of an expert is its number. -/
def sampleShrinkEnv : ShrinkEnv Nat where
  nLayer := 2
  nExpert := 2
  expertStride := fun _ => 1
  record := fun _ e => e

/-- Every slot `s` holds the expert `s`; slot 1 was used last. -/
def sampleBanks : SlotBanks Nat where
  mixedSlotBank := true
  layerSlotSlab := false
  l1 :=
    { slotBank := 2
      slotToExpert := fun k => some (k % 2)
      slotAge := fun k => if k % 2 = 0 then 1 else 2
      expertToSlot := fun k => some (k % 2)
      mixedBank := fun _ => some ⟨2, fun slot => slot⟩ }
  gpuL2 := .empty

/-- Every call succeeds, the allocation of `il` apart when `alloc il` is false. -/
def sampleShrinkIo (alloc : Nat → Bool) (il : Nat) : ShrinkIo Nat where
  alloc := alloc il
  prepare := true
  views := true
  contents := true
  write := fun _ => true
  fresh := fun _ => 7
  allocL2 := true
  prepareL2 := true
  writeL2 := fun _ => true
  freshL2 := fun _ => 7

theorem sampleBanks_coherent : sampleBanks.Coherent sampleShrinkEnv := by
  constructor
  · intro il _
    constructor
    · intro slot hslot e he
      have hslot : slot < 2 := hslot
      have he : some ((il * 2 + slot) % 2) = some e := he
      obtain rfl : slot = e := by
        have := Option.some.inj he
        omega
      refine ⟨hslot, he, ?_⟩
      show (if slot < 2 then some slot else none) = some slot
      exact if_pos hslot
    · intro e he slot hs
      have he : e < 2 := he
      have hs : some ((il * 2 + e) % 2) = some slot := hs
      obtain rfl : e = slot := by
        have := Option.some.inj hs
        omega
      exact ⟨he, hs⟩
  · intro il _
    constructor
    · intro slot hslot
      exact absurd hslot (Nat.not_lt_zero _)
    · intro e _ slot he
      exact absurd he (by simp [sampleBanks, FlatLevel.layer, FlatLevel.empty])

/-- **Stranded rows.** The second layer gets no bank: layer 0 has been compacted, its second slot
    still names expert 1, which now lives in the first, and the slot count is still two. -/
theorem shrink_stops_between_layers :
    sampleBanks.Coherent sampleShrinkEnv ∧
    (let r := shrinkSlotBanksCarry sampleShrinkEnv (sampleShrinkIo fun il => il = 0) sampleBanks 2 1
     r.2 = false ∧ ¬ r.1.Coherent sampleShrinkEnv) ∧
    (let r := shrinkSlotBanksGpuL2 sampleShrinkEnv (sampleShrinkIo fun il => il = 0) sampleBanks 2 1
     r.2 = false ∧ ¬ r.1.Coherent sampleShrinkEnv) := by
  refine ⟨sampleBanks_coherent, ⟨by decide +kernel, ?_⟩, by decide +kernel, ?_⟩
  · intro h
    have h1 := ((h.1 0 (by decide)).named 1 (by decide +kernel) 1 (by decide +kernel)).2.1
    exact absurd h1 (by decide +kernel)
  · intro h
    have h1 := ((h.1 0 (by decide)).named 1 (by decide +kernel) 1 (by decide +kernel)).2.1
    exact absurd h1 (by decide +kernel)

/-- The same banks, with every call succeeding, and with no bank for layer 0. -/
theorem shrink_sampleBanks :
    (ShrunkByCarry sampleShrinkEnv sampleBanks
      (shrinkSlotBanksCarry sampleShrinkEnv (sampleShrinkIo fun _ => true) sampleBanks 2 1).1 1 ∧
    ShrunkBySplit sampleShrinkEnv sampleBanks
      (shrinkSlotBanksGpuL2 sampleShrinkEnv (sampleShrinkIo fun _ => true) sampleBanks 2 1).1 1) ∧
    (shrinkSlotBanksCarry sampleShrinkEnv (sampleShrinkIo fun _ => false)
      sampleBanks 2 1).1.Coherent sampleShrinkEnv ∧
    (shrinkSlotBanksGpuL2 sampleShrinkEnv (sampleShrinkIo fun _ => false)
      sampleBanks 2 1).1.Coherent sampleShrinkEnv := by
  obtain ⟨⟨h1, -⟩, h2, -⟩ := shrink_keeps_banks_coherent sampleShrinkEnv
    (sampleShrinkIo fun _ => true) sampleBanks 1 sampleBanks_coherent
  obtain ⟨⟨-, h3⟩, -, h4⟩ := shrink_keeps_banks_coherent sampleShrinkEnv
    (sampleShrinkIo fun _ => false) sampleBanks 1 sampleBanks_coherent
  refine ⟨⟨h1 (by decide +kernel), h2 (by decide +kernel)⟩, h3 ?_ (by decide +kernel),
    h4 ?_ (by decide +kernel)⟩
  · refine Or.inr (Or.inr (Or.inl fun h => ?_))
    exact absurd h.alloc (by decide)
  · refine Or.inr (Or.inr (Or.inl fun h => ?_))
    exact absurd h.alloc.1 (by decide)

end DS4.FlashMoe
