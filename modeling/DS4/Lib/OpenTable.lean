import Mathlib.Data.Finset.Card
import Mathlib.Data.Nat.Find

namespace DS4.Lib

/-!
# Open addressing with linear probing

A table of `cap` slots.  A key has a home slot; a search walks from there, round the end of the
table, until it finds the key or a free slot.  Nothing is ever taken out.

* `probe` — the walk; `probe_spec`, `probe_isSome` — where it ends, and that it ends when some slot
  is free.
* `Holds` — the table holds the finite map `m`: each key once, and every slot between the home of a
  key and the key is in use.
* `Holds.probe_eq` — what the walk finds is what `m` says; `Holds.put` — writing there holds the
  map with the key changed.
* `Holds.exists_free` — a table with fewer keys than slots has a free slot.
-/

/-- The slots in use hold a key and its value. -/
structure OpenTable (K V : Type*) where
  cap : Nat
  slot : Nat → Option (K × V)

namespace OpenTable

variable {K V : Type*} {t : OpenTable K V} {k : K} {i j : Nat}

/-! ### Slots -/

/-- Any slot of the table is met by a walk of `cap` slots. -/
theorem exists_distance (hi : i < t.cap) (hj : j < t.cap) : ∃ d < t.cap, j = (i + d) % t.cap := by
  rcases Nat.le_total i j with hle | hle
  · refine ⟨j - i, by omega, ?_⟩
    rw [Nat.add_sub_cancel' hle, Nat.mod_eq_of_lt hj]
  · rcases Nat.eq_or_lt_of_le hle with rfl | hlt
    · exact ⟨0, by omega, by rw [Nat.add_zero, Nat.mod_eq_of_lt hj]⟩
    · refine ⟨j + t.cap - i, by omega, ?_⟩
      rw [show i + (j + t.cap - i) = j + t.cap by omega, Nat.add_mod_right, Nat.mod_eq_of_lt hj]

/-- The table with slot `i` written. -/
def write (t : OpenTable K V) (i : Nat) (e : K × V) : OpenTable K V :=
  { t with slot := Function.update t.slot i (some e) }

@[simp] theorem write_cap (e : K × V) : (t.write i e).cap = t.cap := rfl

@[simp] theorem write_slot_self (e : K × V) : (t.write i e).slot i = some e := by
  simp [write]

theorem write_slot_of_ne (hne : j ≠ i) (e : K × V) : (t.write i e).slot j = t.slot j := by
  simp [write, hne]

/-! ### The walk -/

/-- The slot is free, or it holds the key. -/
def Stops (t : OpenTable K V) (k : K) (i : Nat) : Prop := ∀ e, t.slot i = some e → e.1 = k

variable [DecidableEq K]

/-- The walk from slot `i`, for so many slots at most: where it stops. -/
def probe (t : OpenTable K V) (k : K) : Nat → Nat → Option Nat
  | 0, _        => none
  | fuel + 1, i =>
    match t.slot i with
    | none   => some i
    | some e => if e.1 = k then some i else probe t k fuel ((i + 1) % t.cap)

theorem probe_of_stops (h : t.Stops k i) (fuel : Nat) : t.probe k (fuel + 1) i = some i := by
  unfold probe
  cases hslot : t.slot i with
  | none => rfl
  | some e => simp [h e hslot]

theorem probe_of_not_stops (h : ¬ t.Stops k i) (fuel : Nat) :
    t.probe k (fuel + 1) i = t.probe k fuel ((i + 1) % t.cap) := by
  unfold Stops at h
  push Not at h
  obtain ⟨e, hslot, hne⟩ := h
  rw [probe, hslot]
  simp [hne]

/-- **Where the walk ends.** It stops at the first slot that is free or holds the key. -/
theorem probe_eq_some {fuel d : Nat} (hi : i < t.cap) (hd : d < fuel)
    (hstop : t.Stops k ((i + d) % t.cap)) (hgo : ∀ d' < d, ¬ t.Stops k ((i + d') % t.cap)) :
    t.probe k fuel i = some ((i + d) % t.cap) := by
  induction d generalizing i fuel with
  | zero =>
    obtain ⟨fuel, rfl⟩ : ∃ n, fuel = n + 1 := ⟨fuel - 1, by omega⟩
    have hhome : (i + 0) % t.cap = i := Nat.mod_eq_of_lt hi
    rw [hhome] at hstop ⊢
    exact probe_of_stops hstop fuel
  | succ d ih =>
    obtain ⟨fuel, rfl⟩ : ∃ n, fuel = n + 1 := ⟨fuel - 1, by omega⟩
    -- the slots of the walk from the next slot on are those of this walk
    have hshift : ∀ n, ((i + 1) % t.cap + n) % t.cap = (i + (n + 1)) % t.cap := by
      intro n
      rw [Nat.mod_add_mod]
      congr 1
      omega
    have hfirst : ¬ t.Stops k i := by
      have := hgo 0 (Nat.succ_pos d)
      rwa [Nat.add_zero, Nat.mod_eq_of_lt hi] at this
    rw [probe_of_not_stops hfirst, ← hshift d]
    refine ih (Nat.mod_lt _ (Nat.zero_lt_of_lt hi)) (Nat.lt_of_succ_lt_succ hd) ?_ ?_
    · rw [hshift]
      exact hstop
    · intro d' hd'
      rw [hshift]
      exact hgo (d' + 1) (Nat.succ_lt_succ hd')

/-- **The walk ends** within `cap` slots when one of them is free. -/
theorem probe_spec {fuel : Nat} (hi : i < t.cap) (hfree : ∃ f < t.cap, t.slot f = none)
    (hfuel : t.cap ≤ fuel) :
    ∃ d < t.cap, t.probe k fuel i = some ((i + d) % t.cap) ∧ t.Stops k ((i + d) % t.cap) ∧
      ∀ d' < d, ¬ t.Stops k ((i + d') % t.cap) := by
  classical
  obtain ⟨f, hf, hnone⟩ := hfree
  obtain ⟨d₀, hd₀, hfd⟩ := exists_distance hi hf
  have hex : ∃ d, t.Stops k ((i + d) % t.cap) := by
    refine ⟨d₀, fun e he => ?_⟩
    rw [← hfd, hnone] at he
    cases he
  have hle : Nat.find hex ≤ d₀ := by
    refine Nat.find_min' hex fun e he => ?_
    rw [← hfd, hnone] at he
    cases he
  have hgo : ∀ d' < Nat.find hex, ¬ t.Stops k ((i + d') % t.cap) := fun d' hd' =>
    Nat.find_min hex hd'
  have hlt : Nat.find hex < t.cap := Nat.lt_of_le_of_lt hle hd₀
  exact ⟨Nat.find hex, hlt, probe_eq_some hi (Nat.lt_of_lt_of_le hlt hfuel) (Nat.find_spec hex) hgo,
    Nat.find_spec hex, hgo⟩

/-! ### The map a table holds -/

/-- The table holds the finite map `m`; `home` says where the walk for a key starts. -/
structure Holds (home : K → Nat) (t : OpenTable K V) (m : K → Option V) : Prop where
  cap_pos : 0 < t.cap
  /-- a slot holds a key of the map and its value -/
  sound : ∀ i < t.cap, ∀ k v, t.slot i = some (k, v) → m k = some v
  /-- a key is found on its walk: no slot before it is free -/
  chain : ∀ k v, m k = some v → ∃ d < t.cap, t.slot ((home k + d) % t.cap) = some (k, v) ∧
    ∀ d' < d, ∃ e, t.slot ((home k + d') % t.cap) = some e ∧ e.1 ≠ k
  /-- a key is in one slot only -/
  once : ∀ i < t.cap, ∀ j < t.cap, ∀ e e', t.slot i = some e → t.slot j = some e' → e.1 = e'.1 → i = j

omit [DecidableEq K] in
theorem holds_empty (home : K → Nat) {cap : Nat} (hcap : 0 < cap) :
    Holds home (⟨cap, fun _ => none⟩ : OpenTable K V) fun _ => none where
  cap_pos := hcap
  sound := by simp
  chain := by simp
  once := by simp

variable {home : K → Nat} {m : K → Option V}

/-- **Lookup.** The walk for a key ends at a slot that says of the key what the map says. -/
theorem Holds.probe_eq (h : Holds home t m) (hhome : home k < t.cap)
    (hfree : ∃ f < t.cap, t.slot f = none) {fuel : Nat} (hfuel : t.cap ≤ fuel) :
    ∃ d < t.cap, t.probe k fuel (home k) = some ((home k + d) % t.cap) ∧
      t.slot ((home k + d) % t.cap) = (m k).map (fun v => (k, v)) ∧
      ∀ d' < d, ∃ e, t.slot ((home k + d') % t.cap) = some e ∧ e.1 ≠ k := by
  obtain ⟨d, hd, hprobe, hstop, hgo⟩ := probe_spec (k := k) hhome hfree hfuel
  have hgo' : ∀ d' < d, ∃ e, t.slot ((home k + d') % t.cap) = some e ∧ e.1 ≠ k := by
    intro d' hd'
    have := hgo d' hd'
    unfold Stops at this
    push Not at this
    exact this
  refine ⟨d, hd, hprobe, ?_, hgo'⟩
  have hlt : (home k + d) % t.cap < t.cap := Nat.mod_lt _ h.cap_pos
  cases hslot : t.slot ((home k + d) % t.cap) with
  | some e =>
    obtain ⟨k', v⟩ := e
    obtain rfl : k' = k := hstop _ hslot
    rw [h.sound _ hlt k' v hslot]
    rfl
  | none =>
    -- a key of the map would be further on, behind a free slot
    cases hm : m k with
    | none => rfl
    | some v =>
      obtain ⟨d₁, -, hkey, hbusy⟩ := h.chain k v hm
      rcases Nat.lt_trichotomy d d₁ with hlt₁ | rfl | hgt
      · obtain ⟨e, he, -⟩ := hbusy d hlt₁
        rw [hslot] at he
        cases he
      · rw [hslot] at hkey
        cases hkey
      · obtain ⟨e, he, hne⟩ := hgo' d₁ hgt
        rw [hkey] at he
        cases he
        exact absurd rfl hne

/-- **Insertion.** The value written where the walk for its key ends. -/
theorem Holds.put (h : Holds home t m) {d : Nat}
    (hslot : t.slot ((home k + d) % t.cap) = (m k).map (fun v => (k, v)))
    (hd : d < t.cap) (hbusy : ∀ d' < d, ∃ e, t.slot ((home k + d') % t.cap) = some e ∧ e.1 ≠ k)
    (v : V) :
    Holds home (t.write ((home k + d) % t.cap) (k, v)) (Function.update m k (some v)) := by
  have hlt : (home k + d) % t.cap < t.cap := Nat.mod_lt _ h.cap_pos
  generalize hi : (home k + d) % t.cap = i at hslot hlt ⊢
  -- the slot was free, or it held the key
  have hwas : ∀ e, t.slot i = some e → e.1 = k := by
    intro e he
    rw [he] at hslot
    cases hm : m k with
    | none => simp [hm] at hslot
    | some w =>
      rw [hm] at hslot
      cases hslot
      rfl
  -- no other slot holds the key
  have hother : ∀ j < t.cap, j ≠ i → ∀ e, t.slot j = some e → e.1 ≠ k := by
    intro j hj hne e he hkey
    obtain ⟨k', w⟩ := e
    obtain rfl : k' = k := hkey
    have hm := h.sound j hj k' w he
    rw [hm] at hslot
    exact hne (h.once j hj i hlt _ _ he hslot rfl)
  refine ⟨h.cap_pos, ?_, ?_, ?_⟩
  · intro j hj k' w hjw
    by_cases hji : j = i
    · subst hji
      rw [write_slot_self] at hjw
      cases hjw
      exact Function.update_self k (some v) m
    · rw [write_slot_of_ne hji] at hjw
      rw [Function.update_of_ne (hother j hj hji _ hjw)]
      exact h.sound j hj k' w hjw
  · intro k' w hm
    by_cases hk : k' = k
    · subst hk
      rw [Function.update_self] at hm
      cases hm
      refine ⟨d, hd, by rw [write_cap, hi, write_slot_self], fun d' hd' => ?_⟩
      obtain ⟨e, he, hne⟩ := hbusy d' hd'
      refine ⟨e, ?_, hne⟩
      rw [write_cap, write_slot_of_ne _ _]
      · exact he
      · intro heq
        rw [heq] at he
        exact hne (hwas e he)
    · -- the walk of another key passes the slot, or did not stop there
      rw [Function.update_of_ne hk] at hm
      obtain ⟨d₁, hd₁, hkey, hbusy₁⟩ := h.chain k' w hm
      refine ⟨d₁, hd₁, ?_, fun d' hd' => ?_⟩
      · rw [write_cap, write_slot_of_ne _ _]
        · exact hkey
        · intro heq
          rw [heq] at hkey
          exact hk (hwas _ hkey)
      · by_cases hat : (home k' + d') % t.cap = i
        · refine ⟨(k, v), ?_, fun heq => hk heq.symm⟩
          rw [write_cap, hat, write_slot_self]
        · obtain ⟨e, he, hne⟩ := hbusy₁ d' hd'
          exact ⟨e, by rw [write_cap, write_slot_of_ne hat]; exact he, hne⟩
  · intro a ha b hb e e' hae hbe hkey
    by_cases hai : a = i
    · by_cases hbi : b = i
      · exact hai.trans hbi.symm
      · rw [hai, write_slot_self] at hae
        cases hae
        rw [write_slot_of_ne hbi] at hbe
        exact absurd hkey.symm (hother b hb hbi _ hbe)
    · rw [write_slot_of_ne hai] at hae
      by_cases hbi : b = i
      · rw [hbi, write_slot_self] at hbe
        cases hbe
        exact absurd hkey (hother a ha hai _ hae)
      · rw [write_slot_of_ne hbi] at hbe
        exact h.once a ha b hb e e' hae hbe hkey

/-! ### Room -/

omit [DecidableEq K] in
/-- **Room.** When the keys of the map are among fewer than `cap`, a slot is free. -/
theorem Holds.exists_free (h : Holds home t m) {keys : Finset K} (hcard : keys.card < t.cap)
    (hkeys : ∀ k v, m k = some v → k ∈ keys) : ∃ f < t.cap, t.slot f = none := by
  by_contra hno
  push Not at hno
  -- otherwise the slots name as many keys
  have hbusy : ∀ i ∈ Finset.range t.cap, (t.slot i).map Prod.fst ∈ keys.map Function.Embedding.some := by
    intro i hi
    have hlt := Finset.mem_range.mp hi
    obtain ⟨e, he⟩ := Option.ne_none_iff_exists'.mp (hno i hlt)
    simpa [he] using hkeys e.1 e.2 (h.sound i hlt e.1 e.2 he)
  have hinj : Set.InjOn (fun i => (t.slot i).map Prod.fst) (Finset.range t.cap : Set Nat) := by
    intro i hi j hj heq
    have hi' := Finset.mem_range.mp (Finset.mem_coe.mp hi)
    have hj' := Finset.mem_range.mp (Finset.mem_coe.mp hj)
    obtain ⟨e, he⟩ := Option.ne_none_iff_exists'.mp (hno i hi')
    obtain ⟨e', he'⟩ := Option.ne_none_iff_exists'.mp (hno j hj')
    refine h.once i hi' j hj' e e' he he' ?_
    simpa [he, he'] using heq
  have hle := Finset.card_le_card_of_injOn _ hbusy hinj
  rw [Finset.card_range, Finset.card_map] at hle
  omega

end OpenTable

end DS4.Lib
