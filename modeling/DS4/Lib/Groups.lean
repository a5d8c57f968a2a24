import Mathlib.Algebra.GroupWithZero.Nat
import Mathlib.Algebra.BigOperators.Group.List.Basic
import Mathlib.Data.List.Induction
import Mathlib.Data.List.Nodup
import Mathlib.Logic.Function.Basic

namespace DS4.Lib

/-!
# Grouping by key, with counts and offsets

The keys of a list of entries are counted, each key gets a segment of one array as long as its
count, and a second pass writes every entry behind those of its key.

* `countKeys` — the counts, and the keys in the order first seen.
* `groupOffset` — where the segments start.
* `Placed.place`, `placeAll` — the second pass; `segment_placeAll` is what the segments hold.
* `sum_map_groups` — a sum over all entries, group by group.
* `scatterAdd` — adding values into the rows of an array.
-/

variable {κ β : Type*} [DecidableEq κ]

/-! ### Counting -/

/-- How often each key was seen, and the keys seen, in order. -/
structure Counted (κ : Type*) where
  counts : κ → Nat
  unique : List κ

/-- Count one more key. -/
def Counted.add (c : Counted κ) (e : κ) : Counted κ where
  counts := Function.update c.counts e (c.counts e + 1)
  unique := if c.counts e = 0 then c.unique ++ [e] else c.unique

/-- The pass over a list of keys. -/
def countKeys (keys : List κ) : Counted κ := keys.foldl Counted.add ⟨fun _ => 0, []⟩

theorem countKeys_append_singleton (keys : List κ) (e : κ) :
    countKeys (keys ++ [e]) = (countKeys keys).add e := by
  simp [countKeys, List.foldl_append]

theorem countKeys_counts (keys : List κ) (e : κ) : (countKeys keys).counts e = keys.count e := by
  induction keys using List.reverseRecOn with
  | nil => rfl
  | append_singleton keys k ih =>
    rw [countKeys_append_singleton, List.count_append, List.count_singleton]
    show Function.update _ k _ e = _
    by_cases hk : e = k
    · subst hk
      rw [Function.update_self, ih]
      simp
    · rw [Function.update_of_ne hk, ih]
      simp [Ne.symm hk]

theorem mem_unique_countKeys {keys : List κ} {e : κ} :
    e ∈ (countKeys keys).unique ↔ e ∈ keys := by
  induction keys using List.reverseRecOn with
  | nil => rfl
  | append_singleton keys k ih =>
    rw [countKeys_append_singleton]
    show e ∈ (if (countKeys keys).counts k = 0 then _ else _) ↔ _
    rw [countKeys_counts]
    by_cases hk : keys.count k = 0
    · simp [hk, ih]
    · -- the key was seen before
      have hmem : k ∈ keys := List.count_pos_iff.mp (Nat.pos_of_ne_zero hk)
      rw [if_neg hk, ih]
      constructor
      · exact fun h => List.mem_append_left _ h
      · intro h
        obtain h | h := List.mem_append.mp h
        · exact h
        · exact (List.mem_singleton.mp h) ▸ hmem

theorem nodup_unique_countKeys (keys : List κ) : (countKeys keys).unique.Nodup := by
  induction keys using List.reverseRecOn with
  | nil => exact List.nodup_nil
  | append_singleton keys k ih =>
    rw [countKeys_append_singleton]
    show List.Nodup (if (countKeys keys).counts k = 0 then _ else _)
    rw [countKeys_counts]
    by_cases hk : keys.count k = 0
    · have hmem : k ∉ (countKeys keys).unique := by
        rw [mem_unique_countKeys]
        exact List.count_eq_zero.mp hk
      rw [if_pos hk]
      exact List.nodup_append.mpr ⟨ih, List.nodup_singleton _, by
        intro a ha b hb hab
        rw [List.mem_singleton.mp hb] at hab
        exact hmem (hab ▸ ha)⟩
    · rw [if_neg hk]
      exact ih

/-! ### Segments -/

/-- Where the segment of the `i`-th key starts. -/
def groupOffset (counts : κ → Nat) (order : List κ) (i : Nat) : Nat :=
  ((order.take i).map counts).sum

omit [DecidableEq κ] in
theorem groupOffset_succ (counts : κ → Nat) {order : List κ} {i : Nat} (hi : i < order.length) :
    groupOffset counts order (i + 1) = groupOffset counts order i + counts order[i] := by
  unfold groupOffset
  rw [List.take_add_one, List.getElem?_eq_getElem hi, List.map_append, List.sum_append]
  rfl

omit [DecidableEq κ] in
theorem groupOffset_mono (counts : κ → Nat) (order : List κ) {i j : Nat} (hij : i ≤ j) :
    groupOffset counts order i ≤ groupOffset counts order j := by
  unfold groupOffset
  obtain ⟨rest, hrest⟩ : order.take i <+: order.take j := List.take_prefix_take_left hij
  rw [← hrest, List.map_append, List.sum_append]
  exact Nat.le_add_right _ _

/-- The segments of two keys do not overlap. -/
theorem groupOffset_apart (counts : κ → Nat) {order : List κ} {e e' : κ}
    (he : e ∈ order) (he' : e' ∈ order) (hne : e ≠ e') :
    groupOffset counts order (order.idxOf e) + counts e ≤
        groupOffset counts order (order.idxOf e') ∨
      groupOffset counts order (order.idxOf e') + counts e' ≤
        groupOffset counts order (order.idxOf e) := by
  have hi : order.idxOf e < order.length := List.idxOf_lt_length_iff.mpr he
  have hi' : order.idxOf e' < order.length := List.idxOf_lt_length_iff.mpr he'
  have hends := groupOffset_succ counts hi
  have hends' := groupOffset_succ counts hi'
  rw [List.getElem_idxOf hi] at hends
  rw [List.getElem_idxOf hi'] at hends'
  have hidx : order.idxOf e ≠ order.idxOf e' := fun h => hne ((List.idxOf_inj he).mp h)
  obtain hlt | hlt := Nat.lt_or_gt_of_ne hidx
  · exact .inl (hends ▸ groupOffset_mono counts order hlt)
  · exact .inr (hends' ▸ groupOffset_mono counts order hlt)

/-- `refs` entries of an array, from `start` on. -/
def segment (slots : Nat → β) (start refs : Nat) : List β :=
  (List.range refs).map fun j => slots (start + j)

theorem segment_succ (slots : Nat → β) (start n : Nat) :
    segment slots start (n + 1) = segment slots start n ++ [slots (start + n)] := by
  simp [segment, List.range_succ]

theorem segment_add (slots : Nat → β) (start n m : Nat) :
    segment slots start (n + m) = segment slots start n ++ segment slots (start + n) m := by
  simp [segment, List.range_add, Nat.add_assoc]

theorem segment_update_of_notMem {slots : Nat → β} {start n i : Nat} {v : β}
    (hi : i < start ∨ start + n ≤ i) :
    segment (Function.update slots i v) start n = segment slots start n := by
  apply List.map_congr_left
  intro j hj
  have hj := List.mem_range.mp hj
  have hne : start + j ≠ i := by omega
  exact Function.update_of_ne hne v slots

/-! ### Placing the entries -/

/-- Where the next entry of each key goes, and the array. -/
structure Placed (κ β : Type*) where
  cursor : κ → Nat
  slots : Nat → β

/-- Write one entry behind those of its key. -/
def Placed.place (s : Placed κ β) (p : κ × β) : Placed κ β where
  cursor := Function.update s.cursor p.1 (s.cursor p.1 + 1)
  slots := Function.update s.slots (s.cursor p.1) p.2

/-- The pass over all entries. -/
def placeAll (s : Placed κ β) (entries : List (κ × β)) : Placed κ β := entries.foldl Placed.place s

/-- The entries of one key. -/
def entriesOf (e : κ) (entries : List (κ × β)) : List β :=
  (entries.filter fun p => p.1 = e).map Prod.snd

theorem entriesOf_append (e : κ) (xs ys : List (κ × β)) :
    entriesOf e (xs ++ ys) = entriesOf e xs ++ entriesOf e ys := by
  simp [entriesOf]

theorem entriesOf_perm {entries entries' : List (κ × β)} (h : entries.Perm entries') (e : κ) :
    (entriesOf e entries).Perm (entriesOf e entries') :=
  (h.filter _).map _

theorem length_entriesOf (e : κ) (entries : List (κ × β)) :
    (entriesOf e entries).length = (entries.map Prod.fst).count e := by
  induction entries with
  | nil => rfl
  | cons p entries ih =>
    by_cases hp : p.1 = e
    · simpa [entriesOf, hp, List.filter_cons] using ih
    · simpa [entriesOf, hp, List.filter_cons, List.count_cons] using ih

/-- What holds while the entries are placed: each key's segment holds its entries so far. -/
structure PlacedInv (start : κ → Nat) (order : List κ) (seen : List (κ × β)) (s : Placed κ β) :
    Prop where
  cursor : ∀ e ∈ order, s.cursor e = start e + (entriesOf e seen).length
  placed : ∀ e ∈ order, segment s.slots (start e) (entriesOf e seen).length = entriesOf e seen

/-- Placing one more entry, when the segments are apart and have room for it. -/
theorem PlacedInv.place {start counts : κ → Nat} {order : List κ} {seen : List (κ × β)}
    {s : Placed κ β} {p : κ × β} (h : PlacedInv start order seen s) (hp : p.1 ∈ order)
    (hroom : ∀ e ∈ order, (entriesOf e (seen ++ [p])).length ≤ counts e)
    (hapart : ∀ e ∈ order, ∀ e' ∈ order, e ≠ e' →
      start e + counts e ≤ start e' ∨ start e' + counts e' ≤ start e) :
    PlacedInv start order (seen ++ [p]) (s.place p) := by
  have hown : entriesOf p.1 (seen ++ [p]) = entriesOf p.1 seen ++ [p.2] := by
    rw [entriesOf_append]
    simp [entriesOf]
  have hother : ∀ e, e ≠ p.1 → entriesOf e (seen ++ [p]) = entriesOf e seen := by
    intro e he
    rw [entriesOf_append]
    simp [entriesOf, Ne.symm he]
  have hcur := h.cursor p.1 hp
  refine ⟨fun e he => ?_, fun e he => ?_⟩
  · by_cases hep : e = p.1
    · subst hep
      rw [hown]
      show Function.update s.cursor p.1 (s.cursor p.1 + 1) p.1 = _
      rw [Function.update_self, hcur, List.length_append, List.length_singleton]
      omega
    · rw [hother e hep]
      show Function.update s.cursor p.1 _ e = _
      rw [Function.update_of_ne hep, h.cursor e he]
  · show segment (Function.update s.slots (s.cursor p.1) p.2) _ _ = _
    by_cases hep : e = p.1
    · -- the entry goes right behind the ones of its key
      subst hep
      rw [hown, List.length_append, List.length_singleton, segment_succ, hcur,
        segment_update_of_notMem (.inr (Nat.le_refl _)), Function.update_self, h.placed p.1 hp]
    · rw [hother e hep]
      have hlen : (entriesOf e seen).length ≤ counts e := hother e hep ▸ hroom e he
      have hlast := hroom p.1 hp
      rw [hown, List.length_append, List.length_singleton] at hlast
      rw [segment_update_of_notMem (by have := hapart e he p.1 hp hep; omega), h.placed e he]

/-- **The segments.** With the counts of the entries as lengths, every segment ends up with the
    entries of its key, in order. -/
theorem segment_placeAll {order : List κ} {entries : List (κ × β)} (s : Placed κ β)
    (hmem : ∀ p ∈ entries, p.1 ∈ order)
    (hcursor : ∀ e ∈ order, s.cursor e =
      groupOffset (entries.map Prod.fst).count order (order.idxOf e))
    {e : κ} (he : e ∈ order) :
    segment (placeAll s entries).slots
        (groupOffset (entries.map Prod.fst).count order (order.idxOf e))
        ((entries.map Prod.fst).count e) = entriesOf e entries := by
  let start : κ → Nat := fun e =>
    groupOffset (entries.map Prod.fst).count order (order.idxOf e)
  -- the invariant holds after every prefix of the entries
  have hall : ∀ seen rest : List (κ × β), seen ++ rest = entries →
      PlacedInv start order seen (placeAll s seen) := by
    intro seen
    induction seen using List.reverseRecOn with
    | nil => exact fun _ _ => ⟨fun e he => hcursor e he, fun e he => rfl⟩
    | append_singleton seen p ih =>
      intro rest hrest
      have hseen := ih (p :: rest) (by simpa using hrest)
      have hpe : p ∈ entries := hrest ▸ by simp
      have hstep : placeAll s (seen ++ [p]) = (placeAll s seen).place p := by
        simp [placeAll, List.foldl_append]
      rw [hstep]
      refine hseen.place (hmem p hpe) (fun e he => ?_)
        (fun e he e' he' hne => groupOffset_apart _ he he' hne)
      rw [← length_entriesOf, ← hrest, entriesOf_append e (seen ++ [p]) rest,
        List.length_append]
      exact Nat.le_add_right _ _
  have hend := (hall entries [] (by simp)).placed e he
  rw [length_entriesOf] at hend
  exact hend

/-! ### Sums by group -/

variable {R : Type*} [AddCommMonoid R]

theorem sum_map_ite_eq {order : List κ} (hnodup : order.Nodup) (k : κ) (r : R) :
    (order.map fun e => if k = e then r else 0).sum = if k ∈ order then r else 0 := by
  induction order with
  | nil => simp
  | cons e order ih =>
    rw [List.map_cons, List.sum_cons, ih (List.nodup_cons.mp hnodup).2]
    by_cases hk : k = e
    · subst hk
      simp [(List.nodup_cons.mp hnodup).1]
    · simp [hk]

omit [DecidableEq κ] in
theorem sum_map_filter (l : List κ) (p : κ → Bool) (f : κ → R) :
    ((l.filter p).map f).sum = (l.map fun a => if p a then f a else 0).sum := by
  induction l with
  | nil => rfl
  | cons a l ih =>
    by_cases ha : p a
    · simp [ha, ih]
    · simp [ha, ih]

omit [DecidableEq κ] in
/-- A sum splits at any test. -/
theorem sum_map_filter_add_not (l : List κ) (p : κ → Bool) (f : κ → R) :
    ((l.filter p).map f).sum + ((l.filter fun a => !p a).map f).sum = (l.map f).sum := by
  rw [sum_map_filter, sum_map_filter, ← List.sum_map_add]
  refine congrArg List.sum (List.map_congr_left fun a _ => ?_)
  by_cases ha : p a
  · simp [ha]
  · simp [ha]

/-- A sum over all entries is the sum over the keys of the sums over their entries. -/
theorem sum_map_groups {order : List κ} {entries : List (κ × β)} (hnodup : order.Nodup)
    (hmem : ∀ p ∈ entries, p.1 ∈ order) (f : κ → β → R) :
    (order.map fun e => ((entriesOf e entries).map (f e)).sum).sum =
      (entries.map fun p => f p.1 p.2).sum := by
  induction entries with
  | nil => simp [entriesOf]
  | cons p entries ih =>
    have hp := hmem p (List.mem_cons_self ..)
    have hsplit : ∀ e, ((entriesOf e (p :: entries)).map (f e)).sum =
        (if p.1 = e then f p.1 p.2 else 0) + ((entriesOf e entries).map (f e)).sum := by
      intro e
      by_cases hpe : p.1 = e
      · subst hpe
        simp [entriesOf]
      · simp [entriesOf, hpe]
    rw [List.map_cons, List.sum_cons, ← ih fun q hq => hmem q (List.mem_cons_of_mem _ hq)]
    rw [List.map_congr_left fun e _ => hsplit e, List.sum_map_add, sum_map_ite_eq hnodup,
      if_pos hp]

/-! ### Adding into rows -/

/-- Add each value into the row it names. -/
def scatterAdd (out : Nat → R) (rows : List (Nat × R)) : Nat → R :=
  rows.foldl (fun out p => Function.update out p.1 (out p.1 + p.2)) out

theorem scatterAdd_apply (out : Nat → R) (rows : List (Nat × R)) (t : Nat) :
    scatterAdd out rows t = out t + ((rows.filter fun p => p.1 = t).map Prod.snd).sum := by
  induction rows generalizing out with
  | nil => simp [scatterAdd]
  | cons p rows ih =>
    show scatterAdd (Function.update out p.1 (out p.1 + p.2)) rows t = _
    rw [ih]
    by_cases hp : p.1 = t
    · subst hp
      simp [add_assoc]
    · simp [hp, Function.update_of_ne (Ne.symm hp)]

end DS4.Lib
