import DS4.Checkpoint.GraphSpans

namespace DS4.Checkpoint

/-!
# Session payloads — growth of the compressed caches

A load makes room for the rows it is about to read.  Growing changes capacities and moves the
compressed rows to larger tensors; the checkpoint is not affected.

* `le_newCap` — the new capacity is enough.
* `GraphSession.Grown` — what growth changes, and what it keeps.
-/

open DS4.Lib

variable {sh : Shape} {cg : CtxGrow}

theorem growLoop_spec (block ceiling need cap : Nat) (hb : 0 < block) :
    need ≤ growLoop block ceiling need cap ∨ growLoop block ceiling need cap = ceiling := by
  fun_induction growLoop block ceiling need cap with
  | case1 => exact Or.inr rfl
  | case2 cap hcond hover ih => exact ih
  | case3 cap hcond => exact Or.inl (by omega)

/-- **Enough room.** -/
theorem le_newCap {ratio ceiling need cap : Nat} (h : need ≤ ceiling) :
    need ≤ newCap cg ratio ceiling need cap := by
  unfold newCap
  dsimp only
  have hpos : 0 < (if cg.block / ratio < 1 then 1 else cg.block / ratio) := by split <;> omega
  obtain hg | hg := growLoop_spec _ ceiling need cap hpos <;> omega

theorem newCap_le (ratio ceiling need cap : Nat) : newCap cg ratio ceiling need cap ≤ ceiling :=
  Nat.min_le_left ..

theorem regrow_length {old : List UInt8} {keep size : Nat} (h : keep ≤ old.length)
    (hs : keep ≤ size) : (regrow old keep size).length = size := by
  rw [regrow, List.length_append, List.length_take, List.length_replicate]
  omega

theorem regrow_take {old : List UInt8} {keep size : Nat} (h : keep ≤ old.length) :
    (regrow old keep size).take keep = old.take keep := by
  rw [regrow, List.take_append_of_le_length (by rw [List.length_take]; omega), List.take_take,
    Nat.min_self]

namespace GraphSession

/-- Everything but capacities and the room behind the compressed rows is kept. -/
structure Grown (sh : Shape) (g g' : GraphSession) : Prop where
  host : g'.toHost = g.toHost
  rawCap : g'.rawCap = g.rawCap
  rawWindow : g'.rawWindow = g.rawWindow
  compCapMax : g'.compCapMax = g.compCapMax
  layerCompCapMax : g'.layerCompCapMax = g.layerCompCapMax
  nComp : g'.nComp = g.nComp
  nIndexComp : g'.nIndexComp = g.nIndexComp
  mtpNRaw : g'.mtpNRaw = g.mtpNRaw
  compCap_le : g.compCap ≤ g'.compCap
  layerCompCap_le : ∀ il, g.layerCompCap il ≤ g'.layerCompCap il
  buf : ∀ b ∈ bodyBuffers sh,
    (g'.buf b).take (liveBytes sh g.rawCap g.nComp g.nIndexComp b) =
      (g.buf b).take (liveBytes sh g.rawCap g.nComp g.nIndexComp b)

theorem Grown.refl (g : GraphSession) : Grown sh g g where
  host := rfl
  rawCap := rfl
  rawWindow := rfl
  compCapMax := rfl
  layerCompCapMax := rfl
  nComp := rfl
  nIndexComp := rfl
  mtpNRaw := rfl
  compCap_le := Nat.le_refl _
  layerCompCap_le := fun _ => Nat.le_refl _
  buf := fun _ _ => rfl

theorem Grown.trans {g g' g'' : GraphSession} (h : Grown sh g g') (h' : Grown sh g' g'') :
    Grown sh g g'' where
  host := h'.host.trans h.host
  rawCap := h'.rawCap.trans h.rawCap
  rawWindow := h'.rawWindow.trans h.rawWindow
  compCapMax := h'.compCapMax.trans h.compCapMax
  layerCompCapMax := h'.layerCompCapMax.trans h.layerCompCapMax
  nComp := h'.nComp.trans h.nComp
  nIndexComp := h'.nIndexComp.trans h.nIndexComp
  mtpNRaw := h'.mtpNRaw.trans h.mtpNRaw
  compCap_le := h.compCap_le.trans h'.compCap_le
  layerCompCap_le := fun il => (h.layerCompCap_le il).trans (h'.layerCompCap_le il)
  buf := fun b hb => by
    have hrest := h'.buf b hb
    rw [h.rawCap, h.nComp, h.nIndexComp] at hrest
    exact hrest.trans (h.buf b hb)

variable {g : GraphSession}

theorem grown_ctxGrowShared (need : Nat) : Grown sh g (g.ctxGrowShared sh cg need) := by
  unfold ctxGrowShared
  split
  · exact Grown.refl g
  · dsimp only
    split
    · exact Grown.refl g
    · exact { Grown.refl g with compCap_le := by dsimp only; omega }

theorem WellFormed.ctxGrowShared (h : g.WellFormed sh cg) (need : Nat) :
    (g.ctxGrowShared sh cg need).WellFormed sh cg := by
  unfold GraphSession.ctxGrowShared
  split
  · exact h
  · dsimp only
    split
    · exact h
    · rename_i hroom hcap
      exact { h with
        compCap_le := newCap_le ..
        full := fun hoff => by
          have hfull := (h.full hoff).1
          omega }

/-- Shared room for `need` rows. -/
theorem le_ctxGrowShared {need : Nat} (h : need ≤ g.compCapMax) :
    need ≤ (g.ctxGrowShared sh cg need).compCap := by
  have hnew : need ≤ newCap cg sh.compMinRatio g.compCapMax need g.compCap := le_newCap h
  unfold GraphSession.ctxGrowShared
  split
  · omega
  · dsimp only
    split
    · omega
    · exact hnew

/-- Where a layer grows. -/
theorem ctxGrowLayer_cases (il need : Nat) (g : GraphSession) :
    g.ctxGrowLayer sh cg il need = g ∧
        (sh.ratio il = 0 ∨ need ≤ g.layerCompCap il ∨
          g.layerCompCapMax il ≤ g.layerCompCap il ∨
          newCap cg (sh.ratio il) (g.layerCompCapMax il) need (g.layerCompCap il) ≤
            g.layerCompCap il) ∨
      ∃ cap, cap = newCap cg (sh.ratio il) (g.layerCompCapMax il) need (g.layerCompCap il) ∧
        g.layerCompCap il < cap ∧ sh.ratio il ≠ 0 ∧ g.layerCompCap il < g.layerCompCapMax il ∧
        g.ctxGrowLayer sh cg il need =
          { g with
            buf := fun b =>
              if b = .attnCompKv il then
                regrow (g.buf b) (g.nComp il * sh.rowBytes) (cap * sh.rowBytes)
              else if b = .indexCompKv il ∧ sh.ratio il = 4 then
                regrow (g.buf b) (g.nIndexComp il * sh.indexRowBytes) (cap * sh.indexRowBytes)
              else g.buf b
            layerCompCap := Function.update g.layerCompCap il cap } := by
  unfold ctxGrowLayer
  dsimp only
  by_cases hroom : sh.ratio il = 0 ∨ need ≤ g.layerCompCap il ∨
      g.layerCompCapMax il ≤ g.layerCompCap il
  · rw [if_pos hroom]
    left
    refine ⟨rfl, ?_⟩
    obtain h | h | h := hroom
    · exact Or.inl h
    · exact Or.inr (Or.inl h)
    · exact Or.inr (Or.inr (Or.inl h))
  · rw [if_neg hroom]
    by_cases hcap : newCap cg (sh.ratio il) (g.layerCompCapMax il) need (g.layerCompCap il) ≤
        g.layerCompCap il
    · rw [if_pos hcap]
      exact Or.inl ⟨rfl, Or.inr (Or.inr (Or.inr hcap))⟩
    · rw [if_neg hcap]
      right
      refine ⟨_, rfl, by omega, fun h0 => hroom (Or.inl h0),
        Nat.lt_of_not_le fun hle => hroom (Or.inr (Or.inr hle)), ?_⟩
      congr 1
      funext b
      by_cases h4 : sh.ratio il = 4
      · rw [if_pos h4]
        by_cases hi : b = .indexCompKv il
        · subst hi
          rw [Function.update_self, if_neg (by simp), if_pos ⟨rfl, h4⟩]
        · rw [Function.update_of_ne hi, if_neg (c := b = .indexCompKv il ∧ _) fun h => hi h.1]
          by_cases ha : b = .attnCompKv il
          · subst ha
            rw [Function.update_self, if_pos rfl]
          · rw [Function.update_of_ne ha, if_neg ha]
      · rw [if_neg h4, if_neg (c := b = .indexCompKv il ∧ _) fun h => h4 h.2]
        by_cases ha : b = .attnCompKv il
        · subst ha
          rw [Function.update_self, if_pos rfl]
        · rw [Function.update_of_ne ha, if_neg ha]

/-- Room for `need` rows in the layer. -/
theorem le_ctxGrowLayer {il need : Nat} (hr : sh.ratio il ≠ 0) (h : need ≤ g.layerCompCapMax il) :
    need ≤ (g.ctxGrowLayer sh cg il need).layerCompCap il := by
  have hnew : need ≤ newCap cg (sh.ratio il) (g.layerCompCapMax il) need (g.layerCompCap il) :=
    le_newCap h
  obtain ⟨heq, hcase⟩ | ⟨cap, hcap, -, -, -, heq⟩ := @ctxGrowLayer_cases sh cg il need g
  · rw [heq]
    omega
  · rw [heq]
    show need ≤ Function.update g.layerCompCap il cap il
    rw [Function.update_self]
    omega

theorem ctxGrowLayer_of_ne {il jl need : Nat} (h : jl ≠ il) :
    (g.ctxGrowLayer sh cg il need).layerCompCap jl = g.layerCompCap jl := by
  obtain ⟨heq, -⟩ | ⟨cap, -, -, -, -, heq⟩ := @ctxGrowLayer_cases sh cg il need g
  · rw [heq]
  · rw [heq]
    exact Function.update_of_ne h _ _

theorem liveBytes_attn {rawLive : Nat} {nComp nIndexComp : Nat → Nat} {il : Nat}
    (h : sh.ratio il ≠ 0) :
    liveBytes sh rawLive nComp nIndexComp (.attnCompKv il) = nComp il * sh.rowBytes := if_neg h

theorem liveBytes_index {rawLive : Nat} {nComp nIndexComp : Nat → Nat} {il : Nat}
    (h : sh.ratio il = 4) :
    liveBytes sh rawLive nComp nIndexComp (.indexCompKv il) = nIndexComp il * sh.indexRowBytes :=
  if_pos h

theorem grown_ctxGrowLayer (h : g.WellFormed sh cg) (il need : Nat) :
    Grown sh g (g.ctxGrowLayer sh cg il need) := by
  obtain ⟨heq, -⟩ | ⟨cap, -, hlt, hr, -, heq⟩ := @ctxGrowLayer_cases sh cg il need g
  · rw [heq]
    exact Grown.refl g
  · rw [heq]
    refine { host := rfl, rawCap := rfl, rawWindow := rfl, compCapMax := rfl,
             layerCompCapMax := rfl, nComp := rfl, nIndexComp := rfl, mtpNRaw := rfl,
             compCap_le := Nat.le_refl _, layerCompCap_le := fun jl => ?_, buf := fun b hb => ?_ }
    · show g.layerCompCap jl ≤ Function.update g.layerCompCap il cap jl
      by_cases hj : jl = il
      · subst hj
        rw [Function.update_self]
        omega
      · rw [Function.update_of_ne hj]
    · dsimp only
      have hlen := h.bufs b hb
      have hlayer := (mem_bodyBuffers sh).mp hb
      by_cases ha : b = .attnCompKv il
      · subst ha
        rw [if_pos rfl, liveBytes_attn hr]
        refine regrow_take ?_
        rw [hlen, liveBytes_attn hr]
        exact Nat.mul_le_mul_right _ (h.nComp_le il hlayer)
      · rw [if_neg ha]
        by_cases hi : b = .indexCompKv il ∧ sh.ratio il = 4
        · obtain ⟨rfl, h4⟩ := hi
          rw [if_pos ⟨rfl, h4⟩, liveBytes_index h4]
          refine regrow_take ?_
          rw [hlen, liveBytes_index h4]
          exact Nat.mul_le_mul_right _ (h.nIndexComp_le il hlayer)
        · rw [if_neg hi]

theorem WellFormed.ctxGrowLayer (h : g.WellFormed sh cg) (il need : Nat) :
    (g.ctxGrowLayer sh cg il need).WellFormed sh cg := by
  have hgrown := grown_ctxGrowLayer h il need
  obtain ⟨heq, -⟩ | ⟨cap, hcap, hlt, hr, hmax, heq⟩ := @ctxGrowLayer_cases sh cg il need g
  · rw [heq]
    exact h
  · have hle : cap ≤ g.layerCompCapMax il := hcap.trans_le (newCap_le ..)
    rw [heq] at hgrown ⊢
    refine { h with layerCompCap_le := fun jl hjl => ?_, full := fun hoff => ?_, bufs := fun b hb => ?_,
                    nComp_le := fun jl hjl => ?_, nIndexComp_le := fun jl hjl => ?_ }
    · show Function.update g.layerCompCap il cap jl ≤ g.layerCompCapMax jl
      by_cases hj : jl = il
      · subst hj
        rw [Function.update_self]
        exact hle
      · rw [Function.update_of_ne hj]
        exact h.layerCompCap_le jl hjl
    -- without growth the layer was full already
    · by_cases hil : il < sh.nLayer
      · have hfull := (h.full hoff).2 il hil
        omega
      · refine ⟨(h.full hoff).1, fun jl hjl => ?_⟩
        show Function.update g.layerCompCap il cap jl = g.layerCompCapMax jl
        rw [Function.update_of_ne (by omega)]
        exact (h.full hoff).2 jl hjl
    · dsimp only
      have hlen := h.bufs b hb
      have hlayer := (mem_bodyBuffers sh).mp hb
      by_cases ha : b = .attnCompKv il
      · subst ha
        have hc := h.nComp_le il hlayer
        rw [if_pos rfl, liveBytes_attn hr, Function.update_self]
        refine regrow_length ?_ (Nat.mul_le_mul_right _ (by omega))
        rw [hlen, liveBytes_attn hr]
        exact Nat.mul_le_mul_right _ hc
      · rw [if_neg ha]
        by_cases hi : b = .indexCompKv il ∧ sh.ratio il = 4
        · obtain ⟨rfl, h4⟩ := hi
          have hc := h.nIndexComp_le il hlayer
          rw [if_pos ⟨rfl, h4⟩, liveBytes_index h4, Function.update_self]
          refine regrow_length ?_ (Nat.mul_le_mul_right _ (by omega))
          rw [hlen, liveBytes_index h4]
          exact Nat.mul_le_mul_right _ hc
        · rw [if_neg hi, hlen]
          cases b with
          | attnCompKv jl =>
            have hj : jl ≠ il := fun e => ha (by rw [e])
            show (if _ then _ else g.layerCompCap jl * _) =
              if _ then _ else Function.update g.layerCompCap il cap jl * _
            rw [Function.update_of_ne hj]
          | indexCompKv jl =>
            show (if sh.ratio jl = 4 then g.layerCompCap jl * _ else 0) =
              if sh.ratio jl = 4 then Function.update g.layerCompCap il cap jl * _ else 0
            by_cases hj : jl = il
            · subst hj
              have h4 : ¬ sh.ratio jl = 4 := fun h4 => hi ⟨rfl, h4⟩
              rw [if_neg h4, if_neg h4]
            · rw [Function.update_of_ne hj]
          | _ => rfl
    · exact (h.nComp_le jl hjl).trans (hgrown.layerCompCap_le jl)
    · exact (h.nIndexComp_le jl hjl).trans (hgrown.layerCompCap_le jl)

end GraphSession

end DS4.Checkpoint
