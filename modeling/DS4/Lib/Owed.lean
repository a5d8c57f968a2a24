import Mathlib.Data.List.Basic

namespace DS4.Lib

/-!
# Events that owe something

Some events of a trace owe something, others pay it back.

* `Settled` — everything that is owed is paid by a later event, or is still owed at the end.
* `Settled.append` — a trace that goes on.
-/

variable {ε α : Type*} {owes pays : ε → α → Prop} {still still' : α → Prop} {es es' : List ε}

/-- What an event of the trace owes is paid by an event behind it, or is `still` owed. -/
def Settled (owes pays : ε → α → Prop) (still : α → Prop) (es : List ε) : Prop :=
  ∀ before e after a, es = before ++ e :: after → owes e a → (∃ e' ∈ after, pays e' a) ∨ still a

theorem Settled.nil : Settled owes pays still [] := by
  intro before e after a h
  exact absurd h.symm (by simp)

/-- Events that owe nothing. -/
theorem Settled.of_free (h : ∀ e ∈ es, ∀ a, ¬ owes e a) : Settled owes pays still es := by
  rintro before e after a rfl howes
  exact absurd howes (h e (by simp) a)

/-- One event at the end that owes what is still owed. -/
theorem Settled.snoc (h : ∀ e ∈ es, ∀ a, ¬ owes e a) {e : ε} (he : ∀ a, owes e a → still a) :
    Settled owes pays still (es ++ [e]) := by
  intro before e' after a heq howes
  have hmem : e' ∈ es ++ [e] := by
    rw [heq]
    simp
  rcases List.mem_append.mp hmem with hin | hlast
  · exact absurd howes (h e' hin a)
  · rw [List.mem_singleton.mp hlast] at howes
    exact Or.inr (he a howes)

/-- **A trace that goes on** pays what was owed, or owes it still. -/
theorem Settled.append (h : Settled owes pays still es) (h' : Settled owes pays still' es')
    (hgo : ∀ a, still a → (∃ e ∈ es', pays e a) ∨ still' a) :
    Settled owes pays still' (es ++ es') := by
  intro before e after a heq howes
  rcases List.append_eq_append_iff.mp heq with ⟨mid, rfl, hmid⟩ | ⟨mid, rfl, hmid⟩
  -- the event stands in the second part
  · exact h' mid e after a hmid howes
  · cases mid with
    | nil =>
      rw [List.nil_append] at hmid
      exact h' [] e after a hmid.symm howes
    -- the event stands in the first part
    | cons e' mid =>
      obtain ⟨rfl, rfl⟩ := List.cons.inj hmid
      rcases h before e mid a rfl howes with ⟨e', he', hpays⟩ | hstill
      · exact Or.inl ⟨e', List.mem_append_left _ he', hpays⟩
      · rcases hgo a hstill with ⟨e', he', hpays⟩ | hstill'
        · exact Or.inl ⟨e', List.mem_append_right _ he', hpays⟩
        · exact Or.inr hstill'

end DS4.Lib
