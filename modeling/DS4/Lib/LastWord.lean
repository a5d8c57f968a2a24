import Mathlib.Data.List.Infix
import Mathlib.Data.Nat.Find

namespace DS4.Lib

/-!
# The word of a set that a text completes last

A reader that only keeps a window of the last bytes can still say which of some words was completed
last, whatever pieces the text comes in.

* `window` — the last `n` elements; `window_snoc` — how it moves on.
* `LastWord` — `t` is the word completed last in `s`.
* `lastWord_of_suffix`, `lastWord_snoc` — what one more element does to it: the word it completes,
  if it completes one, and else what it was before.
-/

variable {α : Type*} {words : List (List α)} {s t t' : List α} {n : Nat}

/-! ### The window -/

/-- The last `n` elements. -/
def window (n : Nat) (s : List α) : List α := s.drop (s.length - n)

@[simp] theorem window_nil : window n ([] : List α) = [] := List.drop_nil

@[simp] theorem length_window : (window n s).length = min n s.length := by
  simp [window]
  omega

/-- A full window drops its first element for the next one. -/
theorem window_snoc (hn : 0 < n) (c : α) :
    (if (window n s).length = n then (window n s).drop 1 else window n s) ++ [c]
      = window n (s ++ [c]) := by
  by_cases hfull : n ≤ s.length
  · rw [if_pos (by simp [hfull])]
    unfold window
    rw [List.drop_drop, List.length_append, List.length_singleton, List.drop_append_of_le_length]
    · congr 2
      omega
    · omega
  · -- there is still room
    rw [if_neg (by simp; omega)]
    unfold window
    simp only [List.length_append, List.length_singleton]
    rw [show s.length - n = 0 by omega, show s.length + 1 - n = 0 by omega]
    simp

/-- A word no longer than the window ends the text when it ends the window. -/
theorem suffix_window (hlen : t.length ≤ n) : t <:+ window n s ↔ t <:+ s := by
  constructor
  · intro h
    exact h.trans (List.drop_suffix _ s)
  · intro h
    rcases Nat.le_total n s.length with hle | hle
    · refine List.suffix_of_suffix_length_le h (List.drop_suffix _ s) ?_
      show t.length ≤ (window n s).length
      rw [length_window]
      exact Nat.le_min.mpr ⟨hlen, h.length_le⟩
    · unfold window
      rw [Nat.sub_eq_zero_of_le hle]
      simpa using h

/-! ### The last word -/

/-- No word of the set ends another. -/
def SuffixFree (words : List (List α)) : Prop :=
  ∀ t ∈ words, ∀ t' ∈ words, t <:+ t' → t = t'

/-- `t` is the word that `s` completes last: less of `s` is behind it than behind any other. -/
def LastWord (words : List (List α)) (s t : List α) : Prop :=
  t ∈ words ∧ ∃ before behind, s = before ++ t ++ behind ∧
    ∀ t' ∈ words, ∀ before' behind', s = before' ++ t' ++ behind' → behind.length ≤ behind'.length

/-- Some word of the set occurs in `s`. -/
def HasWord (words : List (List α)) (s : List α) : Prop := ∃ t ∈ words, t <:+: s

/-- Two words that end at one place are one. -/
theorem SuffixFree.eq (h : SuffixFree words) (ht : t ∈ words) (ht' : t' ∈ words) (hs : t <:+ s)
    (hs' : t' <:+ s) : t = t' := by
  rcases Nat.le_total t.length t'.length with hle | hle
  · exact h t ht t' ht' (List.suffix_of_suffix_length_le hs hs' hle)
  · exact (h t' ht' t ht (List.suffix_of_suffix_length_le hs' hs hle)).symm

theorem LastWord.hasWord (h : LastWord words s t) : HasWord words s := by
  obtain ⟨ht, before, behind, rfl, -⟩ := h
  exact ⟨t, ht, before, behind, rfl⟩

/-- Where a word occurs, one occurs last. -/
theorem HasWord.last (h : HasWord words s) : ∃ t, LastWord words s t := by
  have hex : ∃ n, ∃ t ∈ words, ∃ before behind, s = before ++ t ++ behind ∧ behind.length = n := by
    obtain ⟨t, ht, before, behind, heq⟩ := h
    exact ⟨behind.length, t, ht, before, behind, heq.symm, rfl⟩
  classical
  obtain ⟨t, ht, before, behind, heq, hlen⟩ := Nat.find_spec hex
  refine ⟨t, ht, before, behind, heq, fun t' ht' before' behind' heq' => ?_⟩
  rw [hlen]
  exact Nat.find_min' hex ⟨t', ht', before', behind', heq', rfl⟩

/-- There is one last word at most. -/
theorem LastWord.unique (hfree : SuffixFree words) (h : LastWord words s t)
    (h' : LastWord words s t') : t = t' := by
  obtain ⟨ht, before, behind, heq, hlast⟩ := h
  obtain ⟨ht', before', behind', heq', hlast'⟩ := h'
  have hlen : behind.length = behind'.length :=
    Nat.le_antisymm (hlast t' ht' before' behind' heq') (hlast' t ht before behind heq)
  have hcut : before ++ t = before' ++ t' := (List.append_inj' (heq.symm.trans heq') hlen).1
  exact hfree.eq ht ht' ⟨before, rfl⟩ ⟨before', hcut.symm⟩

/-- A word at the end of the text is the last one. -/
theorem lastWord_of_suffix (ht : t ∈ words) (h : t <:+ s) : LastWord words s t := by
  obtain ⟨before, rfl⟩ := h
  exact ⟨ht, before, [], by simp, fun _ _ _ _ _ => Nat.zero_le _⟩

/-- What is before the last element, when a word does not end there. -/
theorem occurs_snoc {c : α} {before behind : List α} (hno : ¬ t <:+ s ++ [c]) :
    s ++ [c] = before ++ t ++ behind ↔ ∃ rest, behind = rest ++ [c] ∧ s = before ++ t ++ rest := by
  constructor
  · intro h
    rcases List.eq_nil_or_concat behind with rfl | ⟨rest, d, rfl⟩
    · exact absurd ⟨before, by simpa using h.symm⟩ hno
    · rw [List.concat_eq_append, ← List.append_assoc] at h
      obtain ⟨hs, hc⟩ := List.append_inj' h rfl
      obtain rfl : c = d := by simpa using hc
      exact ⟨rest, List.concat_eq_append, hs⟩
  · rintro ⟨rest, rfl, rfl⟩
    simp

/-- An element that completes no word leaves the last word as it is. -/
theorem lastWord_snoc {c : α} (hno : ∀ w ∈ words, ¬ w <:+ s ++ [c]) :
    LastWord words (s ++ [c]) t ↔ LastWord words s t := by
  constructor
  · rintro ⟨ht, before, behind, heq, hlast⟩
    obtain ⟨rest, rfl, hs⟩ := (occurs_snoc (hno t ht)).mp heq
    refine ⟨ht, before, rest, hs, fun t' ht' before' rest' hs' => ?_⟩
    have := hlast t' ht' before' (rest' ++ [c]) ((occurs_snoc (hno t' ht')).mpr ⟨rest', rfl, hs'⟩)
    simpa using this
  · rintro ⟨ht, before, rest, hs, hlast⟩
    refine ⟨ht, before, rest ++ [c], (occurs_snoc (hno t ht)).mpr ⟨rest, rfl, hs⟩, ?_⟩
    intro t' ht' before' behind' heq
    obtain ⟨rest', rfl, hs'⟩ := (occurs_snoc (hno t' ht')).mp heq
    simpa using hlast t' ht' before' rest' hs'

/-- An element that completes no word brings no word in. -/
theorem hasWord_snoc {c : α} (hno : ∀ w ∈ words, ¬ w <:+ s ++ [c]) :
    HasWord words (s ++ [c]) ↔ HasWord words s := by
  constructor
  · rintro ⟨t, ht, before, behind, heq⟩
    obtain ⟨rest, -, hs⟩ := (occurs_snoc (hno t ht)).mp heq.symm
    exact ⟨t, ht, before, rest, hs.symm⟩
  · rintro ⟨t, ht, hin⟩
    exact ⟨t, ht, hin.trans (List.prefix_append s [c]).isInfix⟩

end DS4.Lib
