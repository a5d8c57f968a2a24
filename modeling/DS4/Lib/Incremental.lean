namespace DS4.Lib

/-!
# Machines that read a text as it grows

A machine steps as long as it can, then more input arrives, and it steps on.  Its steps are stable: what it
can do, it can still do when there is more input.

* `Runs step s t` — some steps lead from `s` to `t`.
* `Runs.unique` — a machine stops in one state only.
* `Runs.feed` — stopping after each input leads where stopping once leads.
* `Runs.invariant` — what each step keeps.
-/

variable {σ ι : Type} {step : σ → Option σ} {push : σ → ι → σ} {stop : σ → σ} {s t u : σ}

/-- Some steps lead from `s` to `t`. -/
inductive Runs (step : σ → Option σ) : σ → σ → Prop
  | refl (s : σ) : Runs step s s
  | head {s t u : σ} (h : step s = some t) (hrest : Runs step t u) : Runs step s u

namespace Runs

theorem single (h : step s = some t) : Runs step s t := head h (refl t)

theorem trans (h : Runs step s t) (h' : Runs step t u) : Runs step s u := by
  induction h with
  | refl s => exact h'
  | head hstep _ ih => exact head hstep (ih h')

/-- A run that ended passed every other. -/
theorem through (h : Runs step s t) (h' : Runs step s u) (hu : step u = none) : Runs step t u := by
  induction h with
  | refl s => exact h'
  | head hstep _ ih =>
    cases h' with
    | refl => exact absurd (hu.symm.trans hstep) nofun
    | head hstep' hrest =>
      obtain rfl := Option.some.inj (hstep.symm.trans hstep')
      exact ih hrest

/-- **One end.** -/
theorem unique (h : Runs step s t) (h' : Runs step s u) (ht : step t = none) (hu : step u = none) : t = u := by
  cases h.through h' hu with
  | refl => rfl
  | head hstep _ => exact absurd (ht.symm.trans hstep) nofun

/-- Nothing runs from where no step is. -/
theorem eq_of_stuck (h : Runs step s t) (hs : step s = none) : t = s := by
  cases h with
  | refl => rfl
  | head hstep _ => exact absurd (hs.symm.trans hstep) nofun

/-- **Invariants.** -/
theorem invariant {Inv : σ → Prop} (hstep : ∀ s t, step s = some t → Inv s → Inv t) (h : Runs step s t)
    (hs : Inv s) : Inv t := by
  induction h with
  | refl s => exact hs
  | head hs' _ ih => exact ih (hstep _ _ hs' hs)

section

variable (hpush : ∀ s t a, step s = some t → step (push s a) = some (push t a))
include hpush

/-- More input does not change a run. -/
theorem pushed (h : Runs step s t) (a : ι) : Runs step (push s a) (push t a) := by
  induction h with
  | refl s => exact refl _
  | head hstep _ ih => exact head (hpush _ _ a hstep) ih

theorem pushedAll (h : Runs step s t) (as : List ι) : Runs step (as.foldl push s) (as.foldl push t) := by
  induction as generalizing s t with
  | nil => exact h
  | cons a as ih => exact ih (pushed hpush h a)

/-- **Inputs one by one**, each with the steps it allows. -/
theorem feed (hstop : ∀ s, Runs step s (stop s)) (as : List ι) (s : σ) :
    Runs step (as.foldl push s) (as.foldl (fun s a => stop (push s a)) s) := by
  induction as generalizing s with
  | nil => exact refl s
  | cons a as ih => exact (pushedAll hpush (hstop (push s a)) as).trans (ih _)

end

end Runs

end DS4.Lib
