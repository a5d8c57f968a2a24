import Mathlib.Data.List.DropRight
import Mathlib.Data.List.Induction
import Mathlib.Order.Lattice

namespace DS4.Lib

/-!
# The largest entries of a list, by insertion

A buffer of bounded size is kept sorted, largest key first. An entry is put behind the entries
that are not smaller, and what no longer fits is dropped.

* `insertTop`, `topK` — the insertion, and the pass over a list.
* `topK_spec` — the buffer at the end: the largest entries, each once.
-/

variable {α κ : Type*} [LinearOrder κ]

/-- Put `x` into a buffer of at most `k` entries. -/
def insertTop (key : α → κ) (k : Nat) (out : List α) (x : α) : List α :=
  let before := out.rdropWhile (fun y => key y < key x)
  let behind := out.rtakeWhile (fun y => key y < key x)
  if out.length < k then before ++ x :: behind
  else if before.length < k then before ++ x :: behind.dropLast
  else out

/-- The pass over a list. -/
def topK (key : α → κ) (k : Nat) (xs : List α) : List α := xs.foldl (insertTop key k) []

variable {key : α → κ} {k : Nat}

theorem rdropWhile_append_rtakeWhile (p : α → Bool) (l : List α) :
    l.rdropWhile p ++ l.rtakeWhile p = l := by
  unfold List.rdropWhile List.rtakeWhile
  rw [← List.reverse_append, List.takeWhile_append_dropWhile, List.reverse_reverse]

/-- In a sorted buffer the entries that are kept before `x` are not smaller. -/
theorem le_of_mem_rdropWhile {x y : α} {out : List α}
    (hsorted : out.Pairwise (fun a b => key b ≤ key a))
    (hy : y ∈ out.rdropWhile (fun y => key y < key x)) : key x ≤ key y := by
  have hne : out.rdropWhile (fun y => decide (key y < key x)) ≠ [] := List.ne_nil_of_mem hy
  -- the last of them stopped the search
  have hlast := List.rdropWhile_last_not (fun y => decide (key y < key x)) out hne
  rw [decide_eq_true_eq, not_lt] at hlast
  have hsub : (out.rdropWhile (fun y => decide (key y < key x))).Pairwise
      (fun a b => key b ≤ key a) :=
    List.Pairwise.sublist
      (List.rdropWhile_prefix (fun y => decide (key y < key x)) out).sublist hsorted
  rw [← List.dropLast_append_getLast hne] at hy hsub
  obtain hy | hy := List.mem_append.mp hy
  · exact le_trans hlast ((List.pairwise_append.mp hsub).2.2 y hy _ (List.mem_singleton_self _))
  · rw [List.mem_singleton.mp hy]
    exact hlast

theorem lt_of_mem_rtakeWhile {x y : α} {out : List α}
    (hy : y ∈ out.rtakeWhile (fun y => key y < key x)) : key y < key x := by
  have := List.mem_rtakeWhile_imp hy
  simpa using this

/-- What the buffer means after some entries: sorted, as full as possible, and not smaller than
    what was dropped. -/
structure TopOf (key : α → κ) (k : Nat) (xs out : List α) : Prop where
  sorted : out.Pairwise (fun a b => key b ≤ key a)
  length : out.length = min k xs.length
  rest : ∃ dropped, (out ++ dropped).Perm xs ∧ ∀ a ∈ out, ∀ b ∈ dropped, key b ≤ key a

theorem sorted_insert {x : α} {before behind : List α}
    (h : (before ++ behind).Pairwise (fun a b => key b ≤ key a))
    (h₁ : ∀ a ∈ before, key x ≤ key a) (h₂ : ∀ b ∈ behind, key b ≤ key x) :
    (before ++ x :: behind).Pairwise (fun a b => key b ≤ key a) := by
  obtain ⟨hb, hh, hbh⟩ := List.pairwise_append.mp h
  refine List.pairwise_append.mpr ⟨hb, List.pairwise_cons.mpr ⟨h₂, hh⟩, ?_⟩
  intro a ha b hmem
  obtain rfl | hmem := List.mem_cons.mp hmem
  · exact h₁ a ha
  · exact hbh a ha b hmem

/-- **Insertion** keeps the meaning of the buffer. -/
theorem TopOf.insert {xs out : List α} (h : TopOf key k xs out) (x : α) :
    TopOf key k (xs ++ [x]) (insertTop key k out x) := by
  obtain ⟨dropped, hperm, hle⟩ := h.rest
  have hsplit := rdropWhile_append_rtakeWhile (fun y => decide (key y < key x)) out
  have hbefore := fun y (hy : y ∈ out.rdropWhile (fun y => key y < key x)) =>
    le_of_mem_rdropWhile h.sorted hy
  have hbehind := fun y (hy : y ∈ out.rtakeWhile (fun y => key y < key x)) =>
    (lt_of_mem_rtakeWhile hy).le
  unfold insertTop
  dsimp only
  generalize out.rdropWhile (fun y => decide (key y < key x)) = before at hsplit hbefore ⊢
  generalize out.rtakeWhile (fun y => decide (key y < key x)) = behind at hsplit hbehind ⊢
  subst hsplit
  have hcons : (before ++ x :: behind).Perm (x :: (before ++ behind)) := List.perm_middle
  have hlen := hperm.length_eq
  have hlength := h.length
  rw [List.length_append] at hlen
  by_cases hroom : (before ++ behind).length < k
  · -- there is room, so that nothing has been dropped
    rw [if_pos hroom]
    have hnil : dropped = [] := List.length_eq_zero_iff.mp (by omega)
    subst hnil
    rw [List.append_nil] at hperm
    refine ⟨sorted_insert h.sorted hbefore hbehind, ?_, [], ?_, by simp⟩
    · rw [hcons.length_eq]
      simp only [List.length_append, List.length_cons, List.length_nil] at hlen hroom ⊢
      omega
    · rw [List.append_nil]
      exact (hcons.trans (hperm.cons x)).trans (List.perm_append_singleton x xs).symm
  · rw [if_neg hroom]
    by_cases hpos : before.length < k
    · rw [if_pos hpos]
      -- the buffer is full: its last entry is dropped
      have hne : behind ≠ [] := by
        rintro rfl
        rw [List.append_nil] at hroom
        exact hroom hpos
      have hback := List.dropLast_append_getLast hne
      have hmem : behind.getLast hne ∈ behind := List.getLast_mem hne
      refine ⟨?_, ?_, behind.getLast hne :: dropped, ?_, ?_⟩
      · have hs := sorted_insert h.sorted hbefore hbehind
        apply List.Pairwise.sublist _ hs
        exact ((List.dropLast_sublist behind).cons_cons x).append_left before
      · rw [List.length_append, List.length_cons, List.length_dropLast]
        rw [List.length_append] at hlength
        have := List.length_pos_iff.mpr hne
        rw [List.length_append, List.length_singleton]
        rw [List.length_append] at hroom hlen
        omega
      · have hmove : (before ++ x :: behind.dropLast ++ behind.getLast hne :: dropped).Perm
            (x :: (before ++ behind ++ dropped)) := by
          rw [List.append_assoc, List.cons_append]
          refine List.perm_middle.trans (List.Perm.cons x ?_)
          rw [List.append_assoc before behind dropped]
          refine List.Perm.append_left before ?_
          rw [List.append_cons, hback]
        exact (hmove.trans (hperm.cons x)).trans (List.perm_append_singleton x xs).symm
      · intro a ha b hb
        have hbx : key b ≤ key x ∧ ∀ c ∈ before ++ behind.dropLast, key b ≤ key c := by
          obtain rfl | hb := List.mem_cons.mp hb
          · refine ⟨hbehind _ hmem, ?_⟩
            intro c hc
            have hs := h.sorted
            rw [← hback, ← List.append_assoc] at hs
            exact (List.pairwise_append.mp hs).2.2 c hc _ (List.mem_singleton_self _)
          · refine ⟨le_trans (hle _ (List.mem_append_right _ hmem) b hb) (hbehind _ hmem), ?_⟩
            intro c hc
            refine hle c ?_ b hb
            obtain hc | hc := List.mem_append.mp hc
            · exact List.mem_append_left _ hc
            · exact List.mem_append_right _ (List.dropLast_subset behind hc)
        obtain ha | ha := List.mem_append.mp ha
        · exact hbx.2 a (List.mem_append_left _ ha)
        · obtain rfl | ha := List.mem_cons.mp ha
          · exact hbx.1
          · exact hbx.2 a (List.mem_append_right _ ha)
    · rw [if_neg hpos]
      -- every entry of the full buffer is at least as large
      have hnil : behind = [] := by
        rw [List.length_append] at hlength
        exact List.length_eq_zero_iff.mp (by omega)
      subst hnil
      rw [List.append_nil] at *
      refine ⟨h.sorted, ?_, x :: dropped, ?_, ?_⟩
      · rw [List.length_append, List.length_singleton]
        omega
      · refine (List.perm_middle.trans (hperm.cons x)).trans ?_
        exact (List.perm_append_singleton x xs).symm
      · intro a ha b hb
        obtain rfl | hb := List.mem_cons.mp hb
        · exact hbefore a ha
        · exact hle a ha b hb

/-- **The largest entries.** -/
theorem topK_spec (key : α → κ) (k : Nat) (xs : List α) : TopOf key k xs (topK key k xs) := by
  unfold topK
  induction xs using List.reverseRecOn with
  | nil => exact ⟨List.Pairwise.nil, by simp, [], by simp, by simp⟩
  | append_singleton xs x ih =>
    rw [List.foldl_append]
    exact ih.insert x

/-- A shorter buffer would hold the first entries. -/
theorem TopOf.take {xs out : List α} (h : TopOf key k xs out) {n : Nat} (hn : n ≤ k) :
    TopOf key n xs (out.take n) := by
  obtain ⟨dropped, hperm, hle⟩ := h.rest
  have hsplit : (out.take n ++ out.drop n).Pairwise (fun a b => key b ≤ key a) := by
    rw [List.take_append_drop]
    exact h.sorted
  refine ⟨(List.pairwise_append.mp hsplit).1, ?_, out.drop n ++ dropped, ?_, ?_⟩
  · rw [List.length_take, h.length]
    omega
  · rw [← List.append_assoc, List.take_append_drop]
    exact hperm
  · intro a ha b hb
    obtain hb | hb := List.mem_append.mp hb
    · exact (List.pairwise_append.mp hsplit).2.2 a ha b hb
    · exact hle a (List.mem_of_mem_take ha) b hb

/-- A buffer with room for all entries drops none. -/
theorem TopOf.perm {xs out : List α} (h : TopOf key k xs out) (hk : xs.length ≤ k) :
    out.Perm xs := by
  obtain ⟨dropped, hperm, -⟩ := h.rest
  have hlen := hperm.length_eq
  have hout := h.length
  rw [List.length_append] at hlen
  have hnil : dropped = [] := List.length_eq_zero_iff.mp (by omega)
  rwa [hnil, List.append_nil] at hperm

/-- The first entry is the largest of all. -/
theorem TopOf.le_head {xs out : List α} {a : α} (h : TopOf key k xs (a :: out)) : ∀ x ∈ xs, key x ≤ key a := by
  obtain ⟨dropped, hperm, hle⟩ := h.rest
  intro x hx
  rcases List.mem_append.mp (hperm.mem_iff.mpr hx) with hx | hx
  · rcases List.mem_cons.mp hx with rfl | hx
    · exact le_refl _
    · exact (List.pairwise_cons.mp h.sorted).1 x hx
  · exact hle a List.mem_cons_self x hx

theorem TopOf.mem {xs out : List α} (h : TopOf key k xs out) : ∀ a ∈ out, a ∈ xs := by
  obtain ⟨dropped, hperm, -⟩ := h.rest
  exact fun a ha => hperm.subset (List.mem_append_left _ ha)

/-- Entries that are mapped with their keys. -/
theorem TopOf.map {β : Type*} {f : β → α} {xs out : List β} (h : TopOf (fun x => key (f x)) k xs out) :
    TopOf key k (xs.map f) (out.map f) := by
  obtain ⟨dropped, hperm, hle⟩ := h.rest
  refine ⟨List.pairwise_map.mpr h.sorted, ?_, dropped.map f, ?_, ?_⟩
  · rw [List.length_map, List.length_map, h.length]
  · rw [← List.map_append]
    exact hperm.map f
  · intro a ha b hb
    obtain ⟨x, hx, rfl⟩ := List.mem_map.mp ha
    obtain ⟨y, hy, rfl⟩ := List.mem_map.mp hb
    exact hle x hx y hy

/-- A buffer that all entries are sorted into. -/
theorem TopOf.of_perm {xs out : List α} (hsorted : out.Pairwise (fun a b => key b ≤ key a)) (hperm : out.Perm xs)
    (hk : xs.length ≤ k) : TopOf key k xs out where
  sorted := hsorted
  length := by rw [hperm.length_eq, Nat.min_eq_right hk]
  rest := ⟨[], by rwa [List.append_nil], fun _ _ _ h => absurd h List.not_mem_nil⟩

/-- A bound on the number of entries does not matter for the buffer. -/
theorem TopOf.of_min {xs out : List α} {n : Nat} (h : TopOf key (min k n) xs out) (hn : xs.length ≤ n) :
    TopOf key k xs out where
  sorted := h.sorted
  length := by rw [h.length]; omega
  rest := h.rest

end DS4.Lib
