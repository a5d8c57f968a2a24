import Mathlib.Data.Nat.Init
import Mathlib.Tactic.Common

namespace DS4.Lib

/-!
# Loops that end

A loop is given by one round of it, which ends the loop with a result or leaves a state for the next
round.

* `Ends` — the rounds from a state end with a result.
* `ends_of_measure` — **a loop ends** if every round leaves a smaller state.
-/

variable {α β : Type*} {round : α → β ⊕ α} {a a' : α} {b b' : β}

/-- From `a` the rounds end, with the result `b`. -/
inductive Ends (round : α → β ⊕ α) : α → β → Prop
  | stop {a : α} {b : β} (h : round a = .inl b) : Ends round a b
  | next {a a' : α} {b : β} (h : round a = .inr a') (hrest : Ends round a' b) : Ends round a b

/-- **A loop ends** if every round leaves a smaller state. -/
theorem ends_of_measure {m : α → Nat} (h : ∀ a a', round a = .inr a' → m a' < m a) (a : α) :
    ∃ b, Ends round a b := by
  induction hm : m a using Nat.strongRecOn generalizing a with
  | ind k ih =>
    cases hround : round a with
    | inl b => exact ⟨b, .stop hround⟩
    | inr a' =>
      obtain ⟨b, hb⟩ := ih (m a') (hm ▸ h a a' hround) a' rfl
      exact ⟨b, .next hround hb⟩

/-- A loop with fuel gives the result, if each unit pays for a round and a round leaves a smaller
    state. -/
theorem Ends.fuelled {m : α → Nat} (hm : ∀ a a', round a = .inr a' → m a' < m a)
    (run : Nat → α → β) (hstop : ∀ n a b, round a = .inl b → run (n + 1) a = b)
    (hnext : ∀ n a a', round a = .inr a' → run (n + 1) a = run n a') (h : Ends round a b) {n : Nat}
    (hn : m a < n) : run n a = b := by
  induction h generalizing n with
  | stop hround =>
    obtain ⟨n, rfl⟩ : ∃ k, n = k + 1 := ⟨n - 1, by omega⟩
    exact hstop n _ _ hround
  | next hround hrest ih =>
    obtain ⟨n, rfl⟩ : ∃ k, n = k + 1 := ⟨n - 1, by omega⟩
    have hless := hm _ _ hround
    rw [hnext n _ _ hround]
    exact ih (by omega)

end DS4.Lib
