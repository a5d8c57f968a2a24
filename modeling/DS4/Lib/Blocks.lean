import Mathlib.Algebra.GroupWithZero.Nat
import Mathlib.Data.List.Basic

namespace DS4.Lib

/-!
# A text that is worked off in blocks

A function works off a text in blocks of `n` elements; what does not fill a block waits.

* `workOff` — the state after the full blocks of a text, and what is left of it.
* `workOff_append` — a text may arrive in two pieces; `workOff_foldl`: in any number of them.
* `workOff_of_lt`, `workOff_of_le` — less than a block, and more; `workOff_block`.
* `workOff_rest_length` — how much is left; `workOff_hom` — the work seen through a function.
-/

variable {α σ : Type*} {n : Nat} [NeZero n] {f : σ → List α → σ} {s : σ} {xs ys : List α}

/-- The full blocks of a text, worked off from the state `s`; what is left of the text. -/
def workOff (n : Nat) [NeZero n] (f : σ → List α → σ) (s : σ) (xs : List α) : σ × List α :=
  if n ≤ xs.length then workOff n f (f s (xs.take n)) (xs.drop n) else (s, xs)
  termination_by xs.length
  decreasing_by
    have hn := Nat.pos_of_neZero n
    rw [List.length_drop]
    omega

theorem workOff_of_lt (h : xs.length < n) : workOff n f s xs = (s, xs) := by
  rw [workOff, if_neg (by omega)]

theorem workOff_of_le (h : n ≤ xs.length) : workOff n f s xs = workOff n f (f s (xs.take n)) (xs.drop n) := by
  rw [workOff, if_pos h]

/-- A block in front. -/
theorem workOff_block (h : xs.length = n) : workOff n f s (xs ++ ys) = workOff n f (f s xs) ys := by
  have hle : n ≤ (xs ++ ys).length := by
    rw [List.length_append]
    omega
  rw [workOff_of_le hle, List.take_left' h, List.drop_left' h]

/-- How much is left. -/
theorem workOff_rest_length (s : σ) (xs : List α) : (workOff n f s xs).2.length = xs.length % n := by
  induction h : xs.length using Nat.strongRecOn generalizing s xs with
  | _ m ih =>
    have hn := Nat.pos_of_neZero n
    by_cases hle : n ≤ xs.length
    · have hlen : (xs.drop n).length = m - n := by rw [List.length_drop, h]
      rw [workOff_of_le hle, ih (m - n) (by omega) _ _ hlen, ← Nat.mod_eq_sub_mod (by omega)]
    · rw [workOff_of_lt (by omega), Nat.mod_eq_of_lt (by omega)]
      exact h

/-- **Two pieces.** What is left of the first is put in front of the second. -/
theorem workOff_append (s : σ) (xs ys : List α) :
    workOff n f s (xs ++ ys) = workOff n f (workOff n f s xs).1 ((workOff n f s xs).2 ++ ys) := by
  induction h : xs.length using Nat.strongRecOn generalizing s xs with
  | _ m ih =>
    have hn := Nat.pos_of_neZero n
    by_cases hle : n ≤ xs.length
    · have hlen : (xs.drop n).length < m := by
        rw [List.length_drop]
        omega
      have hstep : workOff n f s (xs ++ ys) = workOff n f (f s (xs.take n)) (xs.drop n ++ ys) := by
        rw [workOff_of_le (by rw [List.length_append]; omega), List.take_append_of_le_length hle,
          List.drop_append_of_le_length hle]
      rw [hstep, ih _ hlen _ _ rfl, workOff_of_le hle]
    · have hshort : xs.length < n := Nat.lt_of_not_le hle
      rw [workOff_of_lt hshort]

/-- **Any pieces.** Each is worked off behind what was left before it. -/
theorem workOff_foldl (s : σ) (xs : List α) (pieces : List (List α)) :
    pieces.foldl (fun c p => workOff n f c.1 (c.2 ++ p)) (workOff n f s xs) =
      workOff n f s (xs ++ pieces.flatten) := by
  induction pieces generalizing xs with
  | nil => rw [List.foldl_nil, List.flatten_nil, List.append_nil]
  | cons p pieces ih =>
    rw [List.foldl_cons, List.flatten_cons, ← workOff_append, ih, List.append_assoc]

/-- The work done in another type of states. -/
theorem workOff_hom {τ : Type*} {f' : τ → List α → τ} (g : σ → τ) (h : ∀ s b, g (f s b) = f' (g s) b) (s : σ)
    (xs : List α) : workOff n f' (g s) xs = (g (workOff n f s xs).1, (workOff n f s xs).2) := by
  induction hl : xs.length using Nat.strongRecOn generalizing s xs with
  | _ m ih =>
    have hn := Nat.pos_of_neZero n
    by_cases hle : n ≤ xs.length
    · have hlen : (xs.drop n).length < m := by
        rw [List.length_drop]
        omega
      rw [workOff_of_le hle, workOff_of_le hle, ← h, ih _ hlen _ _ rfl]
    · rw [workOff_of_lt (by omega), workOff_of_lt (by omega)]

end DS4.Lib
