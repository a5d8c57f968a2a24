import DS4.FlashMoe.Decode

namespace DS4.FlashMoe

/-!
# Flash-MoE — what the table operations do

The step lemmas every later module cites instead of unfolding the bank operations.

* `Level.Holds` — both tables say that a slot holds an expert.
* `Level.lookup_eq_some`, `Level.commit_holds_self`, `Level.commit_holds_of_ne` — lookups, and
  commits seen through `Holds`.
* `lruScan_eq_none`, `pickSlot_reserved`, `pickSlot_isSome`, `pickSlot_unprotected` — what the
  eviction policy can return, and when it returns something.
-/

variable {ρ β : Type}

namespace Level

/-! ### Projections -/

@[simp] theorem setBytes_slotToExpert (lv : Level β) (s : Nat) (x : β) :
    (lv.setBytes s x).slotToExpert = lv.slotToExpert := rfl

@[simp] theorem setBytes_expertToSlot (lv : Level β) (s : Nat) (x : β) :
    (lv.setBytes s x).expertToSlot = lv.expertToSlot := rfl

@[simp] theorem setBytes_slotAge (lv : Level β) (s : Nat) (x : β) :
    (lv.setBytes s x).slotAge = lv.slotAge := rfl

@[simp] theorem setBytes_bytes (lv : Level β) (s : Nat) (x : β) :
    (lv.setBytes s x).bytes = Function.update lv.bytes s x := rfl

@[simp] theorem setAge_slotToExpert (lv : Level β) (s : Nat) (a : UInt64) :
    (lv.setAge s a).slotToExpert = lv.slotToExpert := rfl

@[simp] theorem setAge_expertToSlot (lv : Level β) (s : Nat) (a : UInt64) :
    (lv.setAge s a).expertToSlot = lv.expertToSlot := rfl

@[simp] theorem setAge_slotAge (lv : Level β) (s : Nat) (a : UInt64) :
    (lv.setAge s a).slotAge = Function.update lv.slotAge s a := rfl

@[simp] theorem setAge_bytes (lv : Level β) (s : Nat) (a : UInt64) :
    (lv.setAge s a).bytes = lv.bytes := rfl

@[simp] theorem record_slotToExpert (lv : Level β) (e s : Nat) (a : UInt64) :
    (lv.record e s a).slotToExpert = Function.update lv.slotToExpert s (some e) := rfl

@[simp] theorem record_expertToSlot (lv : Level β) (e s : Nat) (a : UInt64) :
    (lv.record e s a).expertToSlot = Function.update lv.expertToSlot e (some s) := rfl

@[simp] theorem record_slotAge (lv : Level β) (e s : Nat) (a : UInt64) :
    (lv.record e s a).slotAge = Function.update lv.slotAge s a := rfl

@[simp] theorem record_bytes (lv : Level β) (e s : Nat) (a : UInt64) :
    (lv.record e s a).bytes = lv.bytes := rfl

@[simp] theorem unmap_slotToExpert (lv : Level β) (n : Nat) (x : Option Nat) (s : Nat) :
    (lv.unmap n x s).slotToExpert = lv.slotToExpert := by
  cases x <;> simp only [unmap]
  split <;> rfl

@[simp] theorem unmap_slotAge (lv : Level β) (n : Nat) (x : Option Nat) (s : Nat) :
    (lv.unmap n x s).slotAge = lv.slotAge := by
  cases x <;> simp only [unmap]
  split <;> rfl

@[simp] theorem unmap_bytes (lv : Level β) (n : Nat) (x : Option Nat) (s : Nat) :
    (lv.unmap n x s).bytes = lv.bytes := by
  cases x <;> simp only [unmap]
  split <;> rfl

/-- `unmap` only forgets experts that were mapped to the slot. -/
theorem unmap_expertToSlot_of_ne (lv : Level β) (n : Nat) (x : Option Nat) {s e t : Nat}
    (he : lv.expertToSlot e = some t) (hne : t ≠ s) :
    (lv.unmap n x s).expertToSlot e = some t := by
  cases x with
  | none => exact he
  | some a =>
    simp only [unmap]
    split
    · rename_i h
      have hea : e ≠ a := by
        rintro rfl
        rw [he] at h
        exact hne (Option.some.inj h.2)
      simp only [Function.update_of_ne hea, he]
    · exact he

/-- What `unmap` keeps was there before. -/
theorem of_unmap_expertToSlot (lv : Level β) (n : Nat) (x : Option Nat) {s e t : Nat}
    (h : (lv.unmap n x s).expertToSlot e = some t) : lv.expertToSlot e = some t := by
  cases x with
  | none => exact h
  | some a =>
    simp only [unmap] at h
    split at h
    · by_cases hea : e = a
      · simp only [hea, Function.update_self] at h
        cases h
      · simpa only [Function.update_of_ne hea] using h
    · exact h

@[simp] theorem commit_slotToExpert (lv : Level β) (n e s : Nat) (ev : Option Nat)
    (a : UInt64) :
    (lv.commit n e s ev a).slotToExpert = Function.update lv.slotToExpert s (some e) := by
  simp only [commit, record_slotToExpert]
  split <;> simp

@[simp] theorem commit_bytes (lv : Level β) (n e s : Nat) (ev : Option Nat) (a : UInt64) :
    (lv.commit n e s ev a).bytes = lv.bytes := by
  simp only [commit, record_bytes]
  split <;> simp

@[simp] theorem invalidate_slotToExpert (lv : Level β) (n s : Nat) :
    (lv.invalidate n s).slotToExpert = Function.update lv.slotToExpert s none := by
  simp [invalidate]

@[simp] theorem invalidate_bytes (lv : Level β) (n s : Nat) :
    (lv.invalidate n s).bytes = lv.bytes := by
  simp [invalidate]

/-! ### Lookups and `Holds` -/

/-- Both tables say that slot `s` holds expert `e`. -/
def Holds (lv : Level β) (e s : Nat) : Prop :=
  lv.slotToExpert s = some e ∧ lv.expertToSlot e = some s

/-- A lookup succeeds on the slots of the bank that hold the expert. -/
theorem lookup_eq_some {lv : Level β} {bank e s : Nat} :
    lv.lookup bank e = some s ↔ s < bank ∧ lv.Holds e s := by
  unfold lookup Holds
  cases h : lv.expertToSlot e with
  | none => simp
  | some t =>
    dsimp only
    by_cases hc : t < bank ∧ lv.slotToExpert t = some e
    · rw [if_pos hc]
      constructor
      · rintro ⟨⟩
        exact ⟨hc.1, hc.2, rfl⟩
      · rintro ⟨-, -, ht⟩
        exact ht
    · rw [if_neg hc]
      constructor
      · rintro ⟨⟩
      · rintro ⟨hs, hse, ⟨⟩⟩
        exact absurd ⟨hs, hse⟩ hc

/-- Two experts do not hold the same slot. -/
theorem Holds.expert_unique {lv : Level β} {e e' s : Nat} (h : lv.Holds e s)
    (h' : lv.Holds e' s) : e = e' := by
  have := h.1.symm.trans h'.1
  exact Option.some.inj this

/-- An expert does not hold two slots. -/
theorem Holds.slot_unique {lv : Level β} {e s s' : Nat} (h : lv.Holds e s)
    (h' : lv.Holds e s') : s = s' := by
  have := h.2.symm.trans h'.2
  exact Option.some.inj this

/-- Unmapping and recording another expert in another slot keeps what a slot holds. -/
theorem unmap_record_holds_of_ne {lv : Level β} {n e s e' s' : Nat} (ev : Option Nat)
    (a : UInt64) (h : lv.Holds e' s') (he : e' ≠ e) (hs : s' ≠ s) :
    ((lv.unmap n ev s).record e s a).Holds e' s' := by
  refine ⟨?_, ?_⟩
  · simpa [Function.update_of_ne hs] using h.1
  · simpa [Function.update_of_ne he] using unmap_expertToSlot_of_ne lv n ev h.2 hs

/-- A recorded expert holds its slot. -/
theorem record_holds_self (lv : Level β) (e s : Nat) (a : UInt64) : (lv.record e s a).Holds e s :=
  ⟨by simp, by simp⟩

/-- A committed expert holds its slot. -/
theorem commit_holds_self (lv : Level β) (n e s : Nat) (ev : Option Nat) (a : UInt64) :
    (lv.commit n e s ev a).Holds e s :=
  record_holds_self _ e s a

/-- A commit keeps every other expert in every other slot. -/
theorem commit_holds_of_ne {lv : Level β} {n e s e' s' : Nat} (ev : Option Nat) (a : UInt64)
    (h : lv.Holds e' s') (he : e' ≠ e) (hs : s' ≠ s) :
    (lv.commit n e s ev a).Holds e' s' := by
  have h₁ : (lv.unmap n ev s).Holds e' s' :=
    ⟨by simpa using h.1, unmap_expertToSlot_of_ne lv n ev h.2 hs⟩
  simp only [commit]
  split
  · exact unmap_record_holds_of_ne _ a h₁ he hs
  · refine ⟨?_, ?_⟩
    · simpa [Function.update_of_ne hs] using h.1
    · simpa [Function.update_of_ne he] using h₁.2

end Level

/-! ### The eviction policy -/

/-- The accumulator of an LRU pass: either nothing below `UINT64_MAX` was seen, or the chosen
    slot was seen, is allowed, and `oldest` is its age. -/
theorem lruScan_fold (allowed : Nat → Bool) (age : Nat → UInt64) (is : List Nat)
    (acc : UInt64 × Option Nat) :
    let r := is.foldl (fun acc i =>
      if allowed i && decide (age i < acc.1) then (age i, some i) else acc) acc
    (r = acc ∧ ∀ i ∈ is, allowed i = true → ¬ age i < acc.1) ∨
      (∃ i ∈ is, allowed i = true ∧ r = (age i, some i)) := by
  induction is generalizing acc with
  | nil => exact Or.inl ⟨rfl, by simp⟩
  | cons i is ih =>
    simp only [List.foldl_cons]
    by_cases hc : (allowed i && decide (age i < acc.1)) = true
    · rw [if_pos hc]
      simp only [Bool.and_eq_true, decide_eq_true_eq] at hc
      rcases ih (age i, some i) with ⟨h, -⟩ | ⟨j, hj, hja, h⟩
      · exact Or.inr ⟨i, List.mem_cons_self, hc.1, h⟩
      · exact Or.inr ⟨j, List.mem_cons_of_mem _ hj, hja, h⟩
    · rw [if_neg hc]
      rcases ih acc with ⟨h, hall⟩ | ⟨j, hj, hja, h⟩
      · refine Or.inl ⟨h, ?_⟩
        intro j hj hja
        rcases List.mem_cons.mp hj with rfl | hj
        · simpa [hja] using hc
        · exact hall j hj hja
      · exact Or.inr ⟨j, List.mem_cons_of_mem _ hj, hja, h⟩

/-- An LRU pass returns an allowed slot of the bank. -/
theorem lruScan_eq_some {n : Nat} {allowed : Nat → Bool} {age : Nat → UInt64} {s : Nat}
    (h : lruScan n allowed age = some s) : s < n ∧ allowed s = true := by
  unfold lruScan at h
  rcases lruScan_fold allowed age (List.range n) (UINT64_MAX, none) with ⟨hr, -⟩ | ⟨i, hi, hia, hr⟩
  · rw [hr] at h
    cases h
  · rw [hr] at h
    obtain rfl : i = s := Option.some.inj h
    exact ⟨List.mem_range.mp hi, hia⟩

/-- An LRU pass fails only if every allowed slot has the age `UINT64_MAX`. -/
theorem lruScan_eq_none {n : Nat} {allowed : Nat → Bool} {age : Nat → UInt64}
    (h : lruScan n allowed age = none) {i : Nat} (hi : i < n) (ha : allowed i = true) :
    age i = UINT64_MAX := by
  unfold lruScan at h
  rcases lruScan_fold allowed age (List.range n) (UINT64_MAX, none) with ⟨-, hall⟩ | ⟨j, -, -, hr⟩
  · have hlt := hall i (List.mem_range.mpr hi) ha
    have : (age i).toNat < 2 ^ 64 := (age i).toNat_lt
    apply UInt64.toNat_inj.mp
    simp only [UInt64.lt_iff_toNat_lt] at hlt
    have hmax : UINT64_MAX.toNat = 2 ^ 64 - 1 := rfl
    omega
  · rw [hr] at h
    cases h

/-- `pickSlot` step by step. -/
theorem pickSlot_eq (cfg : Config) (lv : Level β) (prot res : Nat → Bool) :
    pickSlot cfg lv prot res =
      (((List.range cfg.slotBank).find? (fun i => !res i && (lv.slotToExpert i).isNone)).or
        ((lruScan cfg.slotBank (fun i => !res i && !lv.guarded cfg prot i) lv.slotAge).or
          (lruScan cfg.slotBank (fun i => !res i) lv.slotAge))) := by
  unfold pickSlot
  cases (List.range cfg.slotBank).find? (fun i => !res i && (lv.slotToExpert i).isNone) with
  | some i => rfl
  | none =>
    simp only [Option.none_or]
    cases lruScan cfg.slotBank (fun i => !res i && !lv.guarded cfg prot i) lv.slotAge <;> rfl

/-- A picked slot is in the bank and not reserved. -/
theorem pickSlot_eq_some {cfg : Config} {lv : Level β} {prot res : Nat → Bool} {s : Nat}
    (h : pickSlot cfg lv prot res = some s) : s < cfg.slotBank ∧ res s = false := by
  rw [pickSlot_eq, Option.or_eq_some_iff, Option.or_eq_some_iff] at h
  rcases h with h | ⟨-, h | ⟨-, h⟩⟩
  · have hm := List.mem_of_find?_eq_some h
    have hp := List.find?_some h
    simp only [Bool.and_eq_true, Bool.not_eq_true'] at hp
    exact ⟨List.mem_range.mp hm, hp.1⟩
  · have hp := lruScan_eq_some h
    simp only [Bool.and_eq_true, Bool.not_eq_true'] at hp
    exact ⟨hp.1, hp.2.1⟩
  · have hp := lruScan_eq_some h
    simp only [Bool.not_eq_true'] at hp
    exact hp

/-- Picking succeeds when some slot that is not reserved can be aged out. -/
theorem pickSlot_isSome {cfg : Config} {lv : Level β} {prot res : Nat → Bool} {i : Nat}
    (hi : i < cfg.slotBank) (hr : res i = false) (ha : lv.slotAge i ≠ UINT64_MAX) :
    ∃ s, pickSlot cfg lv prot res = some s := by
  cases h : pickSlot cfg lv prot res with
  | some s => exact ⟨s, rfl⟩
  | none =>
    rw [pickSlot_eq, Option.or_eq_none_iff, Option.or_eq_none_iff] at h
    exact absurd (lruScan_eq_none h.2.2 hi (by simp [hr])) ha

/-- A protected expert keeps its slot as long as there is an empty slot, or one that holds no
    protected expert and can be aged out. -/
theorem pickSlot_unprotected {cfg : Config} {lv : Level β} {prot res : Nat → Bool} {i : Nat}
    (hi : i < cfg.slotBank) (hr : res i = false) (hg : lv.guarded cfg prot i = false)
    (ha : lv.slotToExpert i = none ∨ lv.slotAge i ≠ UINT64_MAX) :
    ∃ s, pickSlot cfg lv prot res = some s ∧ lv.guarded cfg prot s = false := by
  rw [pickSlot_eq]
  cases h₁ : (List.range cfg.slotBank).find?
      (fun i => !res i && (lv.slotToExpert i).isNone) with
  | some s =>
    have hp := List.find?_some h₁
    simp only [Bool.and_eq_true, Option.isNone_iff_eq_none] at hp
    exact ⟨s, rfl, by simp [Level.guarded, hp.2]⟩
  | none =>
    have hne : lv.slotAge i ≠ UINT64_MAX := by
      rcases ha with ha | ha
      · have := List.find?_eq_none.mp h₁ i (List.mem_range.mpr hi)
        simp [hr, ha] at this
      · exact ha
    cases h₂ : lruScan cfg.slotBank (fun i => !res i && !lv.guarded cfg prot i) lv.slotAge with
    | some s =>
      have hp := lruScan_eq_some h₂
      simp only [Bool.and_eq_true, Bool.not_eq_true'] at hp
      exact ⟨s, rfl, hp.2.2⟩
    | none => exact absurd (lruScan_eq_none h₂ hi (by simp [hr, hg])) hne

end DS4.FlashMoe
