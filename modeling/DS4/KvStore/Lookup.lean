import DS4.KvStore.Load
import DS4.KvStore.Sha1Digest

namespace DS4.KvStore

/-!
# The KV cache — the entry that is found

`ds4_kvstore_find_text_prefix` goes over the entries once and hashes a start of the prompt only for
those that would be preferred to the best so far.

* `Usable` — the entries that a prompt can use, by the SHA-1 of the standard.
* `NoBetter` — a longer text is better, and more tokens are for texts of one length.
* `Best` — what the scan has found among the entries behind it; `Best.step`, `best_foldl`.
* `findTextPrefix_optimal` — what is found is the best usable entry.
-/

open DS4.Lib DS4.Checkpoint

/-- An entry that a prompt can use. -/
structure Usable (kc : Store) (prompt : List UInt8) (quantBits : Int) (ctxSize : Nat) (e : Entry) : Prop where
  textBytes : e.textBytes ≤ prompt.length
  minTokens : kc.opt.minTokens ≤ i32 e.tokens
  ctxSize : e.ctxSize ≤ ctxSize
  quantBits : kc.rejectDifferentQuant = true → e.quantBits = UInt8.ofNat quantBits.toNat
  sha : e.sha = hex20 (Sha1.digest (prompt.take e.textBytes))

/-- `x` is no better than `e`. -/
def NoBetter (x e : Entry) : Prop :=
  x.textBytes < e.textBytes ∨ (x.textBytes = e.textBytes ∧ x.tokens ≤ e.tokens)

variable {env : Env} {kc : Store} {prompt : List UInt8} {q : Int} {ctx : Nat} {dir : Dir} {e x : Entry}

theorem NoBetter.refl (e : Entry) : NoBetter e e := Or.inr ⟨rfl, Nat.le_refl _⟩

theorem NoBetter.trans {y : Entry} (h : NoBetter x y) (h' : NoBetter y e) : NoBetter x e := by
  unfold NoBetter at *
  omega

theorem noBetter_of_preferred {b : Entry} (h : preferred (some b) e = true) : NoBetter b e := by
  simp only [preferred, Bool.or_eq_true, Bool.and_eq_true, decide_eq_true_eq, beq_iff_eq] at h
  unfold NoBetter
  omega

theorem noBetter_of_not_preferred {b : Entry} (h : preferred (some b) e = false) : NoBetter e b := by
  simp only [preferred, Bool.or_eq_false_iff, Bool.and_eq_false_iff, decide_eq_false_iff_not,
    beq_eq_false_iff_ne] at h
  unfold NoBetter
  omega

/-! ### The scan -/

/-- What the scan has found among the entries behind it. -/
def Best (kc : Store) (prompt : List UInt8) (q : Int) (ctx : Nat) (seen : List Entry) (best : Option Entry) : Prop :=
  (∀ e, best = some e → e ∈ seen ∧ Selects kc prompt q ctx e ∧
    ∀ x ∈ seen, Selects kc prompt q ctx x → NoBetter x e) ∧
  (best = none → ∀ x ∈ seen, ¬ Selects kc prompt q ctx x)

theorem Best.nil : Best kc prompt q ctx [] none :=
  ⟨nofun, fun _ _ hx => absurd hx List.not_mem_nil⟩

/-- One entry more. -/
theorem Best.step {seen : List Entry} {best : Option Entry} (h : Best kc prompt q ctx seen best) (e : Entry) :
    Best kc prompt q ctx (seen ++ [e]) (findStep kc prompt q ctx best e) := by
  have hlast : ∀ x ∈ seen ++ [e], x ∈ seen ∨ x = e := fun x hx =>
    (List.mem_append.mp hx).imp_right List.mem_singleton.mp
  obtain ⟨hstep, hs, hpref⟩ | ⟨hstep, hnot⟩ := @findStep_cases kc prompt q ctx best e
  · -- the new entry is preferred to the best so far
    rw [hstep]
    refine ⟨fun e' he' => ?_, nofun⟩
    obtain rfl := Option.some.inj he'
    refine ⟨List.mem_append_right _ List.mem_cons_self, hs, fun x hx hsel => ?_⟩
    rcases hlast x hx with hx | rfl
    · cases best with
      | none => exact absurd hsel (h.2 rfl x hx)
      | some b => exact ((h.1 b rfl).2.2 x hx hsel).trans (noBetter_of_preferred hpref)
    · exact NoBetter.refl x
  · -- it is passed over
    rw [hstep]
    refine ⟨fun b hb => ?_, fun h0 x hx => ?_⟩
    · obtain ⟨hmem, hs, hbest⟩ := h.1 b hb
      refine ⟨List.mem_append_left _ hmem, hs, fun x hx hsel => ?_⟩
      rcases hlast x hx with hx | rfl
      · exact hbest x hx hsel
      · rw [hb] at hnot
        exact noBetter_of_not_preferred (hnot hsel)
    · rcases hlast x hx with hx | rfl
      · exact h.2 h0 x hx
      · intro hsel
        rw [h0] at hnot
        exact absurd (hnot hsel) Bool.noConfusion

/-- All entries. -/
theorem best_foldl {seen : List Entry} {best : Option Entry} (h : Best kc prompt q ctx seen best) (es : List Entry) :
    Best kc prompt q ctx (seen ++ es) (es.foldl (findStep kc prompt q ctx) best) := by
  induction es generalizing seen best with
  | nil =>
    rw [List.append_nil]
    exact h
  | cons e es ih =>
    have hstep := ih (h.step e)
    rw [List.append_assoc] at hstep
    exact hstep

/-! ### What is found -/

/-- The code selects the entries that can be used. -/
theorem selects_iff_usable (he : e ∈ refresh env dir) : Selects kc prompt q ctx e ↔ Usable kc prompt q ctx e := by
  obtain ⟨bytes, -, -, -, hw⟩ := of_mem_refresh he
  have hsized := hw.toReadable.sized.textBytes
  have hlen : (prompt.take e.textBytes).length < 2 ^ 61 := by
    rw [List.length_take]
    omega
  have hsha := sha1BytesHex_eq hlen
  constructor
  · intro h
    have hel := h.eligible
    simp only [eligible, Bool.and_eq_true, Bool.or_eq_true, decide_eq_true_eq, beq_iff_eq,
      Bool.not_eq_true'] at hel
    obtain ⟨⟨⟨htext, hmin⟩, hctx⟩, hquant⟩ := hel
    refine ⟨htext, hmin, hctx, fun hr => ?_, by rw [← h.sha, hsha]⟩
    rcases hquant with hr' | hq
    · rw [hr] at hr'
      cases hr'
    · exact hq
  · intro h
    refine ⟨?_, hsha.trans h.sha.symm⟩
    simp only [eligible, Bool.and_eq_true, Bool.or_eq_true, decide_eq_true_eq, beq_iff_eq,
      Bool.not_eq_true']
    refine ⟨⟨⟨h.textBytes, h.minTokens⟩, h.ctxSize⟩, ?_⟩
    cases hr : kc.rejectDifferentQuant with
    | false => exact Or.inl rfl
    | true => exact Or.inr (h.quantBits hr)

/-- **The best usable entry** is found, and none exactly when no entry can be used. -/
theorem findTextPrefix_optimal (env : Env) (kc : Store) (prompt : List UInt8) (q : Int) (ctx : Nat) (dir : Dir) :
    (∀ e, findTextPrefix env kc prompt q ctx dir = some e →
      e ∈ refresh env dir ∧ Usable kc prompt q ctx e ∧
        ∀ x ∈ refresh env dir, Usable kc prompt q ctx x → NoBetter x e) ∧
      (findTextPrefix env kc prompt q ctx dir = none ↔
        ∀ x ∈ refresh env dir, ¬ Usable kc prompt q ctx x) := by
  have hbest : Best kc prompt q ctx (refresh env dir) (findTextPrefix env kc prompt q ctx dir) :=
    best_foldl Best.nil (refresh env dir)
  refine ⟨fun e he => ?_, fun h0 x hx hu => hbest.2 h0 x hx ((selects_iff_usable hx).mpr hu), fun hnone => ?_⟩
  · obtain ⟨hmem, hs, hall⟩ := hbest.1 e he
    exact ⟨hmem, (selects_iff_usable hmem).mp hs, fun x hx hu => hall x hx ((selects_iff_usable hx).mpr hu)⟩
  · cases hfind : findTextPrefix env kc prompt q ctx dir with
    | none => rfl
    | some e =>
      obtain ⟨hmem, hs, -⟩ := hbest.1 e hfind
      exact absurd ((selects_iff_usable hmem).mp hs) (hnone e hmem)

end DS4.KvStore
