import DS4.Lib.Run

namespace DS4.Lib

/-!
# Runs with outputs, and simulation

A machine gives an output with every step, or has no step; its specification is a machine that has
one for every input.

* `runOut` — the outputs of a run and the state behind it.
* `Simulates R step spec good` — related states do the same for an input that is `good`.
* `Simulates.run` — **then whole runs do**, and their ends are related.
* `Sound R step spec`, `Sound.run` — the same for a machine as far as it has a step.
-/

variable {σ τ ι ο : Type*} {step : σ → ι → Option (σ × ο)} {spec : τ → ι → τ × ο} {R : σ → τ → Prop}
  {good : τ → ι → Prop} {s : σ} {a : τ}

/-- The state behind a run, with its outputs. -/
def runOut (step : σ → ι → Option (σ × ο)) : σ → List ι → Option (σ × List ο)
  | s, []      => some (s, [])
  | s, i :: is => (step s i).bind fun r => (runOut step r.1 is).map fun q => (q.1, r.2 :: q.2)

/-- The outputs of a run of the specification. -/
def specOut (spec : τ → ι → τ × ο) : τ → List ι → List ο
  | _, []      => []
  | a, i :: is => (spec a i).2 :: specOut spec (spec a i).1 is

/-- The state behind a run of the specification. -/
def specEnd (spec : τ → ι → τ × ο) (a : τ) (is : List ι) : τ := is.foldl (fun a i => (spec a i).1) a

/-- Related states do the same for an input that is `good`. -/
def Simulates (R : σ → τ → Prop) (step : σ → ι → Option (σ × ο)) (spec : τ → ι → τ × ο)
    (good : τ → ι → Prop) : Prop :=
  ∀ s a i, R s a → good a i → ∃ s', step s i = some (s', (spec a i).2) ∧ R s' (spec a i).1

/-- **Whole runs** do the same. -/
theorem Simulates.run (h : Simulates R step spec good) {is : List ι} (hs : R s a)
    (hgood : Guarded (fun a i => (spec a i).1) good a is) :
    ∃ s', runOut step s is = some (s', specOut spec a is) ∧ R s' (specEnd spec a is) := by
  induction is generalizing s a with
  | nil => exact ⟨s, rfl, hs⟩
  | cons i is ih =>
    obtain ⟨hi, his⟩ := hgood
    obtain ⟨s', hstep, hs'⟩ := h s a i hs hi
    obtain ⟨t, hrun, ht⟩ := ih hs' his
    refine ⟨t, ?_, ht⟩
    rw [runOut, hstep, Option.bind_some, hrun]
    rfl

/-- Where there is a step, related states do the same. -/
def Sound (R : σ → τ → Prop) (step : σ → ι → Option (σ × ο)) (spec : τ → ι → τ × ο) : Prop :=
  ∀ s a i s' o, R s a → step s i = some (s', o) → o = (spec a i).2 ∧ R s' (spec a i).1

/-- **A run that has an end** has the outputs of the specification. -/
theorem Sound.run (h : Sound R step spec) {is : List ι} {os : List ο} {t : σ} (hs : R s a)
    (hrun : runOut step s is = some (t, os)) : os = specOut spec a is ∧ R t (specEnd spec a is) := by
  induction is generalizing s a os with
  | nil =>
    obtain ⟨rfl, rfl⟩ := Prod.mk.inj (Option.some.inj hrun)
    exact ⟨rfl, hs⟩
  | cons i is ih =>
    obtain ⟨⟨s', o⟩, hstep, hbehind⟩ := Option.bind_eq_some_iff.mp hrun
    obtain ⟨⟨t', os'⟩, hrest, heq⟩ := Option.map_eq_some_iff.mp hbehind
    obtain ⟨rfl, rfl⟩ := Prod.mk.inj heq
    obtain ⟨rfl, hs'⟩ := h s a i s' o hs hstep
    obtain ⟨hos, ht⟩ := ih hs' hrest
    refine ⟨?_, ht⟩
    rw [specOut, ← hos]

/-- An input that is always good makes guarded runs. -/
theorem guarded_of_forall {next : τ → ι → τ} {p : ι → Prop} {is : List ι} (h : ∀ i ∈ is, p i) :
    Guarded next (fun _ i => p i) a is := by
  induction is generalizing a with
  | nil => trivial
  | cons i is ih => exact ⟨h i List.mem_cons_self, ih fun j hj => h j (List.mem_cons_of_mem i hj)⟩

end DS4.Lib
