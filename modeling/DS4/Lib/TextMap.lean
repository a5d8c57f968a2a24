import Mathlib.Data.List.Infix
import Mathlib.Data.Set.Card
import Mathlib.Logic.Function.Basic

namespace DS4.Lib

/-!
# Maps on texts

A map gives every text a value or none. A map can be put behind a text, inside another map; then a
change of the one is a change of the other.

* `graft p m o` — the map `m` behind the text `p`, and the map `o` elsewhere.
* `graft_append`, `graft_graft` — what is behind a text, and maps behind maps.
* `update_graft` — **a change** behind a text.
* `Lists m ks vs` — the texts of a map with their values; `Lists.graft`, `Lists.insert`.
* `keysOf m` — the texts with a value; `ncard_keysOf_insert`, `ncard_keysOf_erase` — how many there
  are after a change.
-/

variable {α β : Type*} [DecidableEq α] {p q s k : List α} {m m' o : List α → Option β}

/-- The map `m` behind the text `p`, and the map `o` elsewhere. -/
def graft (p : List α) (m o : List α → Option β) : List α → Option β :=
  fun k => if p <+: k then m (k.drop p.length) else o k

@[simp] theorem graft_append (p : List α) (m o : List α → Option β) (k : List α) :
    graft p m o (p ++ k) = m k := by
  unfold graft
  rw [if_pos (List.prefix_append p k), List.drop_left]

theorem graft_outside (h : ¬ p <+: k) : graft p m o k = o k := if_neg h

/-- What `graft` is, as a case split. -/
theorem graft_cases (p : List α) (m o : List α → Option β) (k : List α) :
    (∃ k', k = p ++ k' ∧ graft p m o k = m k') ∨ (¬ p <+: k ∧ graft p m o k = o k) := by
  by_cases h : p <+: k
  · obtain ⟨k', rfl⟩ := h
    exact Or.inl ⟨k', rfl, graft_append p m o k'⟩
  · exact Or.inr ⟨h, graft_outside h⟩

@[simp] theorem graft_nil (m o : List α → Option β) : graft [] m o = m := by
  funext k
  exact graft_append [] m o k

/-- A map behind a map. -/
theorem graft_graft (p q : List α) (m o o' : List α → Option β) :
    graft p (graft q m o) o' = graft (p ++ q) m (graft p o o') := by
  funext k
  obtain ⟨k', rfl, hk⟩ | ⟨hp, hk⟩ := graft_cases p (graft q m o) o' k
  · rw [hk]
    obtain ⟨k'', rfl, hk'⟩ | ⟨hq, hk'⟩ := graft_cases q m o k'
    · rw [hk', ← List.append_assoc, graft_append]
    · have hpq : ¬ p ++ q <+: p ++ k' := fun h => hq ((List.prefix_append_right_inj p).mp h)
      rw [hk', graft_outside hpq, graft_append]
  · have hpq : ¬ p ++ q <+: k := fun h => hp ((List.prefix_append p q).trans h)
    rw [hk, graft_outside hpq, graft_outside hp]

/-- **A change** behind a text. -/
theorem update_graft (p : List α) (m o : List α → Option β) (k : List α) (v : Option β) :
    Function.update (graft p m o) (p ++ k) v = graft p (Function.update m k v) o := by
  funext s
  by_cases hs : s = p ++ k
  · rw [hs, Function.update_self, graft_append, Function.update_self]
  · rw [Function.update_of_ne hs]
    obtain ⟨s', rfl, heq⟩ | ⟨hp, heq⟩ := graft_cases p m o s
    · have hne : s' ≠ k := fun h => hs (h ▸ rfl)
      rw [heq, graft_append, Function.update_of_ne hne]
    · rw [heq, graft_outside hp]

/-- The map without values. -/
def noText : List α → Option β := fun _ => none

omit [DecidableEq α] in
@[simp] theorem noText_apply (k : List α) : (noText : List α → Option β) k = none := rfl

/-- A map without values behind a text is no longer than the text. -/
theorem graft_noText_noText (p : List α) : graft p (noText : List α → Option β) noText = noText := by
  funext k
  unfold graft
  split <;> rfl

/-- The map has the texts `ks`, each once, with the values `vs`. -/
structure Lists (m : List α → Option β) (ks : List (List α)) (vs : List β) : Prop where
  nodup : ks.Nodup
  mem : ∀ k, (m k).isSome → k ∈ ks
  values : ks.map m = vs.map some

omit [DecidableEq α] in
theorem Lists.isSome {ks : List (List α)} {vs : List β} (h : Lists m ks vs) (hk : k ∈ ks) : (m k).isSome := by
  have hmem : m k ∈ vs.map some := h.values ▸ List.mem_map_of_mem hk
  obtain ⟨v, -, hv⟩ := List.mem_map.mp hmem
  rw [← hv]
  rfl

omit [DecidableEq α] in
theorem lists_noText : Lists (noText : List α → Option β) [] [] :=
  ⟨List.nodup_nil, fun _ h => absurd h (by simp), rfl⟩

/-- One map behind a text, and another one that has nothing there. -/
theorem Lists.graft {ks ks' : List (List α)} {vs vs' : List β} (h : Lists m ks vs) (h' : Lists o ks' vs')
    (hp : graft p noText o = o) : Lists (graft p m o) (ks' ++ ks.map (p ++ ·)) (vs' ++ vs) := by
  have hnone : ∀ k, o (p ++ k) = none := fun k => by
    rw [← hp, graft_append, noText_apply]
  have hother : ∀ k ∈ ks', ¬ p <+: k := by
    rintro _ hk ⟨k, rfl⟩
    have hsome := h'.isSome hk
    rw [hnone k] at hsome
    exact absurd hsome (by simp)
  refine ⟨?_, ?_, ?_⟩
  · refine List.nodup_append.mpr ⟨h'.nodup, h.nodup.map (List.append_right_injective p), ?_⟩
    rintro _ hk _ hk' rfl
    obtain ⟨k', -, rfl⟩ := List.mem_map.mp hk'
    exact hother _ hk (List.prefix_append p k')
  · intro k hk
    rw [List.mem_append]
    obtain ⟨k', rfl, heq⟩ | ⟨-, heq⟩ := graft_cases p m o k
    · exact Or.inr (List.mem_map_of_mem (h.mem k' (heq ▸ hk)))
    · exact Or.inl (h'.mem k (heq ▸ hk))
  · rw [List.map_append, List.map_append, List.map_map, ← h.values, ← h'.values]
    congr 1
    · exact List.map_congr_left fun k hk => graft_outside (hother k hk)
    · exact List.map_congr_left fun k _ => graft_append p m o k

/-- A text more. -/
theorem Lists.insert {ks : List (List α)} {vs : List β} (h : Lists m ks vs) (hk : m k = none) (v : β) :
    Lists (Function.update m k (some v)) (ks ++ [k]) (vs ++ [v]) := by
  have hne : k ∉ ks := fun hmem => by
    have hsome := h.isSome hmem
    rw [hk] at hsome
    exact absurd hsome (by simp)
  refine ⟨List.nodup_append.mpr ⟨h.nodup, List.nodup_singleton k, ?_⟩, ?_, ?_⟩
  · rintro s hs t ht rfl
    exact hne (List.mem_singleton.mp ht ▸ hs)
  · intro s hs
    rw [List.mem_append, List.mem_singleton]
    by_cases heq : s = k
    · exact Or.inr heq
    · rw [Function.update_of_ne heq] at hs
      exact Or.inl (h.mem s hs)
  · rw [List.map_append, List.map_append, ← h.values, List.map_singleton, List.map_singleton,
      Function.update_self]
    congr 1
    refine List.map_congr_left fun s hs => Function.update_of_ne ?_ _ _
    rintro rfl
    exact hne hs

/-- The texts with a value. -/
def keysOf (m : List α → Option β) : Set (List α) := {k | (m k).isSome}

omit [DecidableEq α] in
@[simp] theorem mem_keysOf : k ∈ keysOf m ↔ (m k).isSome := Iff.rfl

omit [DecidableEq α] in
@[simp] theorem keysOf_noText : keysOf (noText : List α → Option β) = ∅ := by
  ext k
  simp

theorem keysOf_insert (m : List α → Option β) (k : List α) (v : β) :
    keysOf (Function.update m k (some v)) = insert k (keysOf m) := by
  ext s
  rw [mem_keysOf, Set.mem_insert_iff, mem_keysOf]
  by_cases hs : s = k
  · rw [hs, Function.update_self]
    simp
  · rw [Function.update_of_ne hs]
    simp [hs]

theorem keysOf_erase (m : List α → Option β) (k : List α) :
    keysOf (Function.update m k none) = keysOf m \ {k} := by
  ext s
  rw [mem_keysOf, Set.mem_sdiff, Set.mem_singleton_iff, mem_keysOf]
  by_cases hs : s = k
  · rw [hs, Function.update_self]
    simp
  · rw [Function.update_of_ne hs]
    simp [hs]

/-- A value for a text is one text more, unless it had one. -/
theorem ncard_keysOf_insert (hfin : (keysOf m).Finite) (k : List α) (v : β) :
    (keysOf (Function.update m k (some v))).ncard = (keysOf m).ncard + if (m k).isSome then 0 else 1 := by
  rw [keysOf_insert]
  split
  next hk => rw [Set.insert_eq_of_mem (mem_keysOf.mpr hk), Nat.add_zero]
  next hk => exact Set.ncard_insert_of_notMem (fun h => hk (mem_keysOf.mp h)) hfin

/-- A text that loses its value. -/
theorem ncard_keysOf_erase (hk : (m k).isSome) :
    (keysOf (Function.update m k none)).ncard = (keysOf m).ncard - 1 := by
  rw [keysOf_erase]
  exact Set.ncard_sdiff_singleton_of_mem (mem_keysOf.mpr hk)

end DS4.Lib
