import Mathlib.Data.List.Basic

namespace DS4.Lib

/-!
# Lists in the order of use

The uses of some keys are logged, the latest first.

* `Recent uses keys` — the keys are among the uses, and stand in the order of their latest use.
* `Recent.use` — a key that is used comes to the front; `Recent.sublist` — keys may go.
-/

variable {α : Type*} [DecidableEq α]

/-- The keys stand in the order of their latest use. -/
structure Recent (uses keys : List α) : Prop where
  used : ∀ x ∈ keys, x ∈ uses
  sorted : keys.Pairwise fun x y => uses.idxOf x < uses.idxOf y

namespace Recent

variable {uses keys keys' : List α}

theorem nil (uses : List α) : Recent uses [] := ⟨fun _ h => (by cases h), List.Pairwise.nil⟩

/-- Keys may go. -/
theorem sublist (h : Recent uses keys) (hsub : List.Sublist keys' keys) : Recent uses keys' :=
  ⟨fun x hx => h.used x (hsub.subset hx), h.sorted.sublist hsub⟩

/-- **A use** brings the key to the front. -/
theorem use (h : Recent uses keys) (x : α) :
    Recent (x :: uses) (x :: keys.filter fun y => y ≠ x) := by
  have hne : ∀ y ∈ keys.filter (fun y => decide (y ≠ x)), y ≠ x := fun y hy => by
    simpa using (List.mem_filter.mp hy).2
  have hshift : ∀ y, y ≠ x → (x :: uses).idxOf y = uses.idxOf y + 1 := fun y hy =>
    List.idxOf_cons_ne _ (Ne.symm hy)
  refine ⟨fun y hy => ?_, List.pairwise_cons.mpr ⟨fun y hy => ?_, ?_⟩⟩
  · rcases List.mem_cons.mp hy with rfl | hy
    · exact List.mem_cons_self ..
    · exact List.mem_cons_of_mem _ (h.used y (List.mem_filter.mp hy).1)
  · rw [List.idxOf_cons_self, hshift y (hne y hy)]
    exact Nat.succ_pos _
  · refine (h.sorted.sublist List.filter_sublist).imp_of_mem fun {y z} hy hz hlt => ?_
    rw [hshift y (hne y hy), hshift z (hne z hz)]
    exact Nat.succ_lt_succ hlt

end Recent

end DS4.Lib
