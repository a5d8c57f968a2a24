import Mathlib.Order.Basic

namespace DS4.Lib

/-!
# Guarded runs of a deterministic machine

A machine is a total step function `step : σ → ι → σ`: whatever the environment decides
(a read that fails, the bytes a failed copy leaves behind) is part of the input, so a run
is a list of inputs folded over a start state.

* `Guarded step good s is` — every input of the run satisfies `good` in the state it is
  applied to.
* `Guarded.invariant` — an invariant kept by every good step holds after a guarded run.
* `Guarded.left` — a prefix of a guarded run is guarded, so the invariant holds in
  every state the run passes through.
-/

variable {σ ι : Type*}

/-- Every input of the run `is` from `s` meets `good` in the state it is applied to. -/
def Guarded (step : σ → ι → σ) (good : σ → ι → Prop) : σ → List ι → Prop
  | _, []      => True
  | s, i :: is => good s i ∧ Guarded step good (step s i) is

@[simp] theorem guarded_nil (step : σ → ι → σ) (good : σ → ι → Prop) (s : σ) :
    Guarded step good s [] := trivial

@[simp] theorem guarded_cons (step : σ → ι → σ) (good : σ → ι → Prop) (s : σ) (i : ι)
    (is : List ι) :
    Guarded step good s (i :: is) ↔ good s i ∧ Guarded step good (step s i) is := Iff.rfl

/-- A guarded run splits at any point into two guarded runs. -/
theorem guarded_append (step : σ → ι → σ) (good : σ → ι → Prop) (s : σ) (is js : List ι) :
    Guarded step good s (is ++ js) ↔
      Guarded step good s is ∧ Guarded step good (is.foldl step s) js := by
  induction is generalizing s with
  | nil => simp
  | cons i is ih => simp [ih, and_assoc]

/-- **Prefixes.** The part of a guarded run up to any point is guarded. -/
theorem Guarded.left {step : σ → ι → σ} {good : σ → ι → Prop} {s : σ} {is js : List ι}
    (h : Guarded step good s (is ++ js)) : Guarded step good s is :=
  ((guarded_append step good s is js).mp h).1

/-- **Invariants.** What every good step keeps holds at the end of a guarded run. -/
theorem Guarded.invariant {step : σ → ι → σ} {good : σ → ι → Prop} {Inv : σ → Prop}
    (hstep : ∀ s i, Inv s → good s i → Inv (step s i)) {s : σ} {is : List ι}
    (h : Guarded step good s is) (hs : Inv s) : Inv (is.foldl step s) := by
  induction is generalizing s with
  | nil => exact hs
  | cons i is ih =>
    obtain ⟨hi, his⟩ := h
    exact ih his (hstep s i hs hi)

end DS4.Lib
