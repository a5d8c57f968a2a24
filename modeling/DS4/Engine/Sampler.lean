import DS4.Lib.TopK
import Mathlib.Algebra.BigOperators.Group.List.Basic
import Mathlib.Algebra.Order.Field.Basic
import Mathlib.Algebra.Order.Ring.Rat
import Mathlib.Algebra.Field.Rat
import Mathlib.Data.List.Sort
import Mathlib.Tactic.Linarith

namespace DS4.Engine.Sampler

/-!
# Sampling a token

The sampler takes the `top_k` largest logits, or all of them, cuts their probabilities at `min_p` of the largest and
behind the mass `top_p`, and walks over what is left with a random number.

* `sampleFullVocab`, `sampleTopPMinP` — the two paths; `keptFullVocab` and `keptTopPMinP` are the tokens they walk over.
* `filteredCount` — how many of the sorted candidates are left, and `walk` — the random choice.
* `Admissible` — what is expected of a token.
* `sampler_admissible`, `sampler_paths_agree` — the tokens are admissible, and the paths have the same ones.
-/

open DS4.Lib (topK TopOf topK_spec)

variable {K : Type} [Field K]

/-! ### Candidates -/

/-- `sample_candidate` -/
structure Candidate (K : Type) where
  id : Nat
  logit : K
  prob : K

/-- A token with `expf((v - max_logit) / temperature)`. -/
def candidate (exp : K → K) (temperature maxLogit : K) (t : Nat × K) : Candidate K :=
  ⟨t.1, t.2, exp ((t.2 - maxLogit) / temperature)⟩

/-- `sum` -/
def total (cands : List (Candidate K)) : K := (cands.map Candidate.prob).sum

theorem total_cons (c : Candidate K) (cs : List (Candidate K)) : total (c :: cs) = c.prob + total cs := by
  unfold total
  rw [List.map_cons, List.sum_cons]

theorem total_append (as bs : List (Candidate K)) : total (as ++ bs) = total as + total bs := by
  unfold total
  rw [List.map_append, List.sum_append]

theorem total_perm {as bs : List (Candidate K)} (h : as.Perm bs) : total as = total bs :=
  (h.map Candidate.prob).sum_eq

/-! ### The logits -/

variable [LinearOrder K]

/-- A `float`. -/
inductive Logit (K : Type) where
  | finite (x : K)
  | posInf
  | negInf
  | nan

/-- `a > b` -/
def Logit.gt : Logit K → Logit K → Bool
  | .finite a, .finite b => b < a
  | .finite _, .negInf   => true
  | .posInf, .finite _   => true
  | .posInf, .negInf     => true
  | _, _                 => false

/-- `DS4_NEG_INF` -/
def negInf30 : K := -1000000000000000000000000000000

/-- `sample_argmax` -/
def sampleArgmax (logits : List (Logit K)) : Nat :=
  (logits.zipIdx.foldl (fun (best : Logit K × Nat) vi => if vi.1.gt best.1 then vi else best)
    (.finite negInf30, 0)).2

/-- The tokens with a finite logit, in order. -/
def finiteTokens (logits : List (Logit K)) : List (Nat × K) :=
  logits.zipIdx.filterMap fun
    | (.finite v, i) => some (i, v)
    | _              => none

/-! ### The cut and the walk -/

/-- The loop for `filtered`, from the candidates that are left on. -/
def filteredCount (sum minProb topP : K) : Bool → K → List K → Nat
  | _, _, []              => 0
  | first, acc, p :: ps =>
    if first = false ∧ p / sum < minProb then 0
    else if topP ≤ (acc + p) / sum then 1
    else 1 + filteredCount sum minProb topP false (acc + p) ps

/-- The candidates that are left of a sorted list. -/
def nucleus (sum topP minP : K) (cands : List (Candidate K)) : List (Candidate K) :=
  let probs := cands.map Candidate.prob
  let minProb := probs.headD 0 / sum * minP
  cands.take (filteredCount sum minProb topP true 0 probs)

/-- `for (...) { r -= prob; if (r <= 0.0f) return id; }` -/
def walk : List (Candidate K) → K → Option Nat
  | [], _      => none
  | c :: cs, r => if r - c.prob ≤ 0 then some c.id else walk cs (r - c.prob)

/-! ### The full vocabulary -/

/-- `qsort` by descending logits; ties may come in any order. -/
structure DescSort (K : Type) [Field K] [LinearOrder K] where
  sort : List (Candidate K) → List (Candidate K)
  perm : ∀ cs, (sort cs).Perm cs
  sorted : ∀ cs, (sort cs).Pairwise (fun a b => b.logit ≤ a.logit)

/-- `max_logit` and `best` -/
def maxLogit (tokens : List (Nat × K)) : Nat × K :=
  tokens.foldl (fun best t => if best.2 < t.2 then t else best) (0, negInf30)

/-- What `sample_full_vocab` walks over. -/
def keptFullVocab (exp : K → K) (qsort : DescSort K) (logits : List (Logit K)) (temperature topP minP : K) :
    List (Candidate K) :=
  let tokens := finiteTokens logits
  let cands := tokens.map (candidate exp temperature (maxLogit tokens).2)
  if 1 ≤ topP then
    let minRel := if 0 < minP then minP else 0
    cands.filter fun c => ¬ c.prob < minRel
  else nucleus (total cands) topP (if 0 < minP then minP else 0) (qsort.sort cands)

/-- `sample_full_vocab`; `u` is the random number. -/
def sampleFullVocab (exp : K → K) (qsort : DescSort K) (logits : List (Logit K)) (temperature topP minP u : K) : Nat :=
  let tokens := finiteTokens logits
  if tokens = [] then sampleArgmax logits
  else
    let best := (maxLogit tokens).1
    let kept := keptFullVocab exp qsort logits temperature topP minP
    if 1 ≤ topP then
      if total kept ≤ 0 then best else (walk kept (u * total kept)).getD best
    else if total (tokens.map (candidate exp temperature (maxLogit tokens).2)) ≤ 0 then best
    else
      match kept.getLast? with
      | none      => best
      | some last => (walk kept (u * total kept)).getD last.id

/-! ### The largest logits -/

/-- `top_k`, no more than the arrays and the vocabulary hold. -/
def clampTopK (k : Int) (nVocab : Nat) : Nat := min (min k.toNat 1024) nVocab

/-- The candidates of `sample_top_p_min_p`. -/
def topCandidates (exp : K → K) (logits : List (Logit K)) (temperature : K) (k : Int) : List (Candidate K) :=
  let out := topK Prod.snd (clampTopK k logits.length) (finiteTokens logits)
  out.map (candidate exp temperature ((out.map Prod.snd).headD 0))

/-- What `sample_top_p_min_p` walks over. -/
def keptTopPMinP (exp : K → K) (logits : List (Logit K)) (temperature : K) (k : Int) (topP minP : K) :
    List (Candidate K) :=
  let cands := topCandidates exp logits temperature k
  nucleus (total cands) topP minP cands

/-- `top_p` where it is a share, else 1. -/
def clampTopP (topP : K) : K := if topP ≤ 0 ∨ 1 < topP then 1 else topP

/-- `min_p`, not below 0. -/
def clampMinP (minP : K) : K := if minP < 0 then 0 else minP

/-- `sample_top_p_min_p`; `u` is the random number. -/
def sampleTopPMinP (exp : K → K) (qsort : DescSort K) (logits : List (Logit K)) (temperature : K) (k : Int)
    (topP minP u : K) : Nat :=
  if temperature ≤ 0 then sampleArgmax logits
  else if k ≤ 0 then sampleFullVocab exp qsort logits temperature (clampTopP topP) (clampMinP minP) u
  else
    let cands := topCandidates exp logits temperature k
    match cands with
    | []     => sampleArgmax logits
    | c :: _ =>
      if total cands ≤ 0 then c.id
      else
        let kept := keptTopPMinP exp logits temperature k (clampTopP topP) (clampMinP minP)
        match kept.getLast? with
        | none      => c.id
        | some last => (walk kept (u * total kept)).getD last.id

/-! ### What the cut leaves -/

/-- What the loop has tested before it went over a candidate. -/
theorem filteredCount_split {sum minProb topP : K} {first : Bool} {acc p : K} {ps before after : List K}
    (heq : ps = before ++ p :: after) (hlt : before.length < filteredCount sum minProb topP first acc ps) :
    (first = false ∨ before ≠ [] → minProb ≤ p / sum) ∧ (before ≠ [] → (acc + before.sum) / sum < topP) := by
  induction before generalizing ps first acc with
  | nil =>
    subst heq
    refine ⟨fun h => ?_, fun h => absurd rfl h⟩
    rw [List.nil_append, filteredCount] at hlt
    have hfirst : first = false := h.resolve_right fun hne => hne rfl
    by_contra hmin
    rw [if_pos ⟨hfirst, not_le.1 hmin⟩] at hlt
    exact Nat.not_lt_zero _ hlt
  | cons b before ih =>
    subst heq
    rw [List.cons_append, filteredCount] at hlt
    split_ifs at hlt with hdrop hstop
    · exact absurd hlt (Nat.not_lt_zero _)
    · rw [List.length_cons] at hlt
      omega
    · rw [List.length_cons, Nat.add_comm] at hlt
      obtain ⟨hmin, hmass⟩ := ih rfl (Nat.lt_of_add_lt_add_left hlt)
      refine ⟨fun _ => hmin (Or.inl rfl), fun _ => ?_⟩
      rw [List.sum_cons, ← add_assoc]
      cases before with
      | nil => rw [List.sum_nil, add_zero]; exact not_le.1 hstop
      | cons b' before => exact hmass (List.cons_ne_nil b' before)

/-- A candidate that is left, among all of them. -/
theorem nucleus_split {sum topP minP : K} {cands before after : List (Candidate K)} {c : Candidate K}
    (h : nucleus sum topP minP cands = before ++ c :: after) :
    ∃ rest, cands = before ++ c :: rest ∧
      (before ≠ [] → (cands.map Candidate.prob).headD 0 / sum * minP ≤ c.prob / sum ∧ total before / sum < topP) := by
  unfold nucleus at h
  dsimp only at h
  set n := filteredCount sum ((cands.map Candidate.prob).headD 0 / sum * minP) topP true 0
    (cands.map Candidate.prob) with hn
  have hcands : cands = before ++ c :: (after ++ cands.drop n) := by
    rw [← List.cons_append, ← List.append_assoc, ← h, List.take_append_drop]
  refine ⟨_, hcands, fun hne => ?_⟩
  have hlen : before.length < n := by
    have := congrArg List.length h
    rw [List.length_take, List.length_append, List.length_cons] at this
    omega
  have hmap : cands.map Candidate.prob =
      before.map Candidate.prob ++ c.prob :: (after ++ cands.drop n).map Candidate.prob := by
    conv_lhs => rw [hcands]
    rw [List.map_append, List.map_cons]
  have hne' : before.map Candidate.prob ≠ [] := fun h0 => hne (List.map_eq_nil_iff.1 h0)
  obtain ⟨hmin, hmass⟩ := filteredCount_split hmap (by rw [List.length_map, ← hn]; exact hlen)
  refine ⟨hmin (Or.inr hne'), ?_⟩
  have := hmass hne'
  rwa [zero_add] at this

theorem nucleus_ne_nil {sum topP minP : K} {cands : List (Candidate K)} (hne : cands ≠ []) :
    nucleus sum topP minP cands ≠ [] := by
  cases cands with
  | nil => exact absurd rfl hne
  | cons c cs =>
    unfold nucleus
    dsimp only
    rw [List.map_cons, filteredCount, if_neg (fun h => absurd h.1 (by decide))]
    split_ifs
    · exact List.cons_ne_nil _ _
    · rw [Nat.add_comm, List.take_succ_cons]
      exact List.cons_ne_nil _ _

variable [IsStrictOrderedRing K]

/-! ### What the walk finds -/

theorem total_nonneg {cs : List (Candidate K)} (h : ∀ c ∈ cs, 0 < c.prob) : 0 ≤ total cs := by
  induction cs with
  | nil => exact le_refl _
  | cons c cs ih =>
    rw [total_cons]
    exact add_nonneg (h c List.mem_cons_self).le (ih fun d hd => h d (List.mem_cons_of_mem c hd))

theorem total_pos {cs : List (Candidate K)} (h : ∀ c ∈ cs, 0 < c.prob) (hne : cs ≠ []) : 0 < total cs := by
  cases cs with
  | nil => exact absurd rfl hne
  | cons c cs =>
    rw [total_cons]
    exact add_pos_of_pos_of_nonneg (h c List.mem_cons_self)
      (total_nonneg fun d hd => h d (List.mem_cons_of_mem c hd))

/-- **The walk** ends at a candidate: the number it starts with is not above the whole mass. -/
theorem walk_mem {cs : List (Candidate K)} {r : K} (hne : cs ≠ []) (h : r ≤ total cs) :
    ∃ c ∈ cs, walk cs r = some c.id := by
  induction cs generalizing r with
  | nil => exact absurd rfl hne
  | cons c cs ih =>
    rw [total_cons] at h
    unfold walk
    split_ifs with hr
    · exact ⟨c, List.mem_cons_self, rfl⟩
    · have hne' : cs ≠ [] := by
        rintro rfl
        have hzero : total ([] : List (Candidate K)) = 0 := rfl
        rw [hzero, add_zero] at h
        exact hr (sub_nonpos.2 h)
      obtain ⟨d, hd, hwalk⟩ := ih hne' (sub_le_iff_le_add'.2 h)
      exact ⟨d, List.mem_cons_of_mem c hd, hwalk⟩

theorem walk_share {cs : List (Candidate K)} {u : K} (hpos : ∀ c ∈ cs, 0 < c.prob) (hne : cs ≠ []) (hu : u < 1) :
    ∃ c ∈ cs, walk cs (u * total cs) = some c.id := by
  refine walk_mem hne ?_
  calc u * total cs ≤ 1 * total cs := mul_le_mul_of_nonneg_right hu.le (total_nonneg hpos)
    _ = total cs := one_mul _

/-- A candidate is chosen where the number lies in its part of the mass. -/
theorem walk_part {before after : List (Candidate K)} {c : Candidate K} {r : K} (hpos : ∀ b ∈ before, 0 < b.prob)
    (hlow : total before < r) (hhigh : r ≤ total before + c.prob) : walk (before ++ c :: after) r = some c.id := by
  induction before generalizing r with
  | nil =>
    have hzero : total ([] : List (Candidate K)) = 0 := rfl
    rw [hzero, zero_add] at hhigh
    rw [List.nil_append, walk, if_pos (sub_nonpos.2 hhigh)]
  | cons b before ih =>
    rw [total_cons] at hlow hhigh
    have hrest := total_nonneg fun d hd => hpos d (List.mem_cons_of_mem b hd)
    have hb : ¬ r - b.prob ≤ 0 := by
      rw [sub_nonpos, not_le]
      exact lt_of_le_of_lt (le_add_of_nonneg_right hrest) hlow
    rw [List.cons_append, walk, if_neg hb]
    exact ih (fun d hd => hpos d (List.mem_cons_of_mem b hd)) (lt_sub_iff_add_lt'.2 hlow)
      (sub_le_iff_le_add'.2 (by rwa [add_assoc] at hhigh))

/-! ### The largest logit -/

/-- The largest finite logit. -/
def IsTop (tokens : List (Nat × K)) (top : K) : Prop := (∃ t ∈ tokens, t.2 = top) ∧ ∀ t ∈ tokens, t.2 ≤ top

omit [Field K] [IsStrictOrderedRing K] in
theorem IsTop.unique {tokens : List (Nat × K)} {a b : K} (ha : IsTop tokens a) (hb : IsTop tokens b) : a = b := by
  obtain ⟨⟨s, hs, rfl⟩, hmaxa⟩ := ha
  obtain ⟨⟨t, ht, rfl⟩, hmaxb⟩ := hb
  exact le_antisymm (hmaxb s hs) (hmaxa t ht)

omit [IsStrictOrderedRing K] in
/-- The loop for `max_logit` starts below some token. -/
theorem maxLogit_isTop {tokens : List (Nat × K)} (h : ∃ t ∈ tokens, negInf30 < t.2) :
    IsTop tokens (maxLogit tokens).2 := by
  have hloop : ∀ (ts : List (Nat × K)) (best : Nat × K),
      (ts.foldl (fun best t => if best.2 < t.2 then t else best) best = best ∨
        ts.foldl (fun best t => if best.2 < t.2 then t else best) best ∈ ts) ∧
      best.2 ≤ (ts.foldl (fun best t => if best.2 < t.2 then t else best) best).2 ∧
        ∀ t ∈ ts, t.2 ≤ (ts.foldl (fun best t => if best.2 < t.2 then t else best) best).2 := by
    intro ts
    induction ts with
    | nil => exact fun best => ⟨Or.inl rfl, le_refl _, nofun⟩
    | cons t ts ih =>
      intro best
      rw [List.foldl_cons]
      obtain ⟨hmem, hbest, hall⟩ := ih (if best.2 < t.2 then t else best)
      split_ifs at hmem hbest hall ⊢ with hlt
      · refine ⟨Or.inr ?_, hlt.le.trans hbest, fun s hs => ?_⟩
        · rcases hmem with heq | hmem
          · rw [heq]
            exact List.mem_cons_self
          · exact List.mem_cons_of_mem t hmem
        · rcases List.mem_cons.1 hs with rfl | hs
          · exact hbest
          · exact hall s hs
      · refine ⟨hmem.imp_right (List.mem_cons_of_mem t), hbest, fun s hs => ?_⟩
        rcases List.mem_cons.1 hs with rfl | hs
        · exact (not_lt.1 hlt).trans hbest
        · exact hall s hs
  obtain ⟨hmem, -, hall⟩ := hloop tokens (0, negInf30)
  obtain ⟨t, ht, hlt⟩ := h
  refine ⟨?_, hall⟩
  rcases hmem with heq | hmem
  · have hle := hall t ht
    rw [heq] at hle
    exact absurd hlt (not_lt.2 hle)
  · exact ⟨_, hmem, rfl⟩

omit [Field K] [LinearOrder K] [IsStrictOrderedRing K] in
theorem length_finiteTokens (logits : List (Logit K)) : (finiteTokens logits).length ≤ logits.length := by
  have hle := List.length_filterMap_le (fun (x : Logit K × Nat) => match x with
    | (.finite v, i) => some (i, v)
    | _              => none) logits.zipIdx
  rw [List.length_zipIdx] at hle
  exact hle

variable {exp : K → K} {temperature : K}

omit [IsStrictOrderedRing K] in
variable (exp temperature) in
/-- **The candidates** of the path for `top_k`. -/
theorem topCandidates_spec {logits : List (Logit K)} (hfin : finiteTokens logits ≠ []) {k : Int} (hk : 0 < k) :
    ∃ top, IsTop (finiteTokens logits) top ∧
      (topCandidates exp logits temperature k).head?.map Candidate.logit = some top ∧
      TopOf Candidate.logit (min k.toNat 1024) ((finiteTokens logits).map (candidate exp temperature top))
        (topCandidates exp logits temperature k) := by
  have hlen := length_finiteTokens logits
  have hspec :=
    (topK_spec Prod.snd (clampTopK k logits.length) (finiteTokens logits)).of_min (k := min k.toNat 1024) hlen
  unfold topCandidates
  dsimp only
  generalize hout : topK Prod.snd (clampTopK k logits.length) (finiteTokens logits) = out at hspec
  cases out with
  | nil =>
    have hzero := hspec.length
    have hpos := List.length_pos_iff.2 hfin
    rw [List.length_nil] at hzero
    omega
  | cons t out =>
    refine ⟨t.2, ⟨⟨t, hspec.mem t List.mem_cons_self, rfl⟩, hspec.le_head⟩, rfl, ?_⟩
    exact TopOf.map (f := candidate exp temperature t.2) hspec

/-! ### Admissible tokens -/

/-- What is expected of a token: in a descending order of the `k` largest logits, it has at least the share `minP` of
    the largest probability, and the mass before it does not reach the share `topP`. -/
def Admissible (exp : K → K) (logits : List (Logit K)) (temperature : K) (k : Nat) (topP minP : K) (token : Nat) :
    Prop :=
  ∀ top, IsTop (finiteTokens logits) top → ∃ before c after,
    TopOf Candidate.logit k ((finiteTokens logits).map (candidate exp temperature top)) (before ++ c :: after) ∧
      (before ++ c :: after).Pairwise (fun a b => b.prob ≤ a.prob) ∧ c.id = token ∧
      minP * exp ((top - top) / temperature) ≤ c.prob ∧ total before < topP * total (before ++ c :: after)

omit [LinearOrder K] [IsStrictOrderedRing K] in
theorem mem_candidates {tokens : List (Nat × K)} {top : K} {c : Candidate K}
    (h : c ∈ tokens.map (candidate exp temperature top)) : c.prob = exp ((c.logit - top) / temperature) := by
  obtain ⟨t, -, rfl⟩ := List.mem_map.1 h
  rfl

/-- By logits is by probabilities. -/
theorem sorted_prob (hmono : StrictMono exp) (ht : 0 < temperature) {top : K} {cs : List (Candidate K)}
    (hprob : ∀ c ∈ cs, c.prob = exp ((c.logit - top) / temperature))
    (h : cs.Pairwise (fun a b => b.logit ≤ a.logit)) : cs.Pairwise (fun a b => b.prob ≤ a.prob) := by
  refine h.imp_of_mem fun ha hb hle => ?_
  rw [hprob _ ha, hprob _ hb]
  exact hmono.monotone (div_le_div_of_nonneg_right (sub_le_sub_right hle top) ht.le)

/-- **What is left** of sorted candidates is admissible. -/
theorem mem_nucleus {cands : List (Candidate K)} {topP minP w : K} (hpos : ∀ c ∈ cands, 0 < c.prob)
    (hhead : (cands.map Candidate.prob).headD 0 = w) (hw : 0 < w) (htopP : 0 < topP) (hminP : minP ≤ 1)
    {c : Candidate K} (hc : c ∈ nucleus (total cands) topP minP cands) :
    ∃ before after, cands = before ++ c :: after ∧ minP * w ≤ c.prob ∧ total before < topP * total cands := by
  obtain ⟨before, rest, hsplit⟩ := List.append_of_mem hc
  obtain ⟨after, rfl, htests⟩ := nucleus_split hsplit
  have hsum : 0 < total (before ++ c :: after) := total_pos hpos (by simp)
  refine ⟨before, after, rfl, ?_⟩
  cases before with
  | nil =>
    have hfirst : c.prob = w := hhead
    rw [hfirst]
    exact ⟨mul_le_of_le_one_left hw.le hminP, mul_pos htopP hsum⟩
  | cons b before =>
    obtain ⟨hmin, hmass⟩ := htests (List.cons_ne_nil b before)
    rw [hhead, div_mul_eq_mul_div, div_le_div_iff_of_pos_right hsum, mul_comm] at hmin
    exact ⟨hmin, (div_lt_iff₀ hsum).1 hmass⟩

theorem clampTopP_spec {topP : K} (h : 0 < topP) :
    0 < clampTopP topP ∧ clampTopP topP ≤ 1 ∧ clampTopP topP ≤ topP := by
  unfold clampTopP
  split_ifs with hc
  · exact ⟨one_pos, le_refl 1, (hc.resolve_left (not_le.2 h)).le⟩
  · exact ⟨h, not_lt.1 fun h1 => hc (Or.inr h1), le_refl _⟩

theorem clampMinP_spec {minP : K} (h : minP ≤ 1) : 0 ≤ clampMinP minP ∧ clampMinP minP ≤ 1 ∧ minP ≤ clampMinP minP := by
  unfold clampMinP
  split_ifs with hc
  · exact ⟨le_refl 0, zero_le_one, hc.le⟩
  · exact ⟨not_lt.1 hc, h, le_refl _⟩

omit [IsStrictOrderedRing K] in
theorem max_zero_clamp {minP : K} (h : 0 ≤ minP) : (if 0 < minP then minP else 0) = minP := by
  split_ifs with hc
  · rfl
  · exact le_antisymm h (not_lt.1 hc)

/-- The candidates of the full vocabulary, sorted. -/
def sortedVocab (exp : K → K) (qsort : DescSort K) (logits : List (Logit K)) (temperature top : K) : List (Candidate K) :=
  qsort.sort ((finiteTokens logits).map (candidate exp temperature top))

omit [IsStrictOrderedRing K] in
variable (exp temperature) in
theorem sortedVocab_spec (qsort : DescSort K) (logits : List (Logit K)) (top : K) :
    TopOf Candidate.logit (finiteTokens logits).length ((finiteTokens logits).map (candidate exp temperature top))
      (sortedVocab exp qsort logits temperature top) :=
  TopOf.of_perm (qsort.sorted _) (qsort.perm _) (by rw [List.length_map])

omit [IsStrictOrderedRing K] in
/-- The first of sorted candidates is the largest. -/
theorem head_prob {tokens : List (Nat × K)} {top : K} (hmax : IsTop tokens top) {k : Nat} {cs : List (Candidate K)}
    (h : TopOf Candidate.logit k (tokens.map (candidate exp temperature top)) cs) (hne : cs ≠ []) :
    (cs.map Candidate.prob).headD 0 = exp ((top - top) / temperature) := by
  cases cs with
  | nil => exact absurd rfl hne
  | cons c cs =>
    obtain ⟨⟨t, ht, htop⟩, hall⟩ := hmax
    obtain ⟨s, hs, hc⟩ := List.mem_map.1 (h.mem c List.mem_cons_self)
    have hle : t.2 ≤ c.logit := h.le_head (candidate exp temperature top t) (List.mem_map_of_mem ht)
    have hlogit : c.logit = top := by
      refine le_antisymm ?_ (htop ▸ hle)
      rw [← hc]
      exact hall s hs
    show c.prob = _
    rw [mem_candidates (h.mem c List.mem_cons_self), hlogit]

/-- The full vocabulary: below the whole mass by the cut, and at the whole mass by `min_p` alone. -/
theorem mem_keptFullVocab (hexp : ∀ x, 0 < exp x) (hone : exp 0 = 1) (qsort : DescSort K) {logits : List (Logit K)}
    {top topP minP : K} (htop : (maxLogit (finiteTokens logits)).2 = top) (hmax : IsTop (finiteTokens logits) top)
    (htopP : 0 < topP) (hle : topP ≤ 1) (hmin0 : 0 ≤ minP) (hminP : minP ≤ 1) {c : Candidate K}
    (hc : c ∈ keptFullVocab exp qsort logits temperature topP minP) :
    ∃ before after, sortedVocab exp qsort logits temperature top = before ++ c :: after ∧
      minP ≤ c.prob ∧ total before < topP * total (sortedVocab exp qsort logits temperature top) := by
  have hspec := sortedVocab_spec exp temperature qsort logits top
  have hperm : (sortedVocab exp qsort logits temperature top).Perm
      ((finiteTokens logits).map (candidate exp temperature top)) := qsort.perm _
  have hpos : ∀ d ∈ sortedVocab exp qsort logits temperature top, 0 < d.prob := fun d hd => by
    rw [mem_candidates (hperm.subset hd)]
    exact hexp _
  unfold keptFullVocab at hc
  dsimp only at hc
  rw [htop, max_zero_clamp hmin0] at hc
  split_ifs at hc with h1
  · obtain ⟨hmem, hkeep⟩ := List.mem_filter.1 hc
    obtain ⟨before, after, hsplit⟩ := List.append_of_mem (hperm.symm.subset hmem)
    refine ⟨before, after, hsplit, not_lt.1 (of_decide_eq_true hkeep), ?_⟩
    -- the candidate itself is part of the whole mass
    rw [le_antisymm hle h1, one_mul, hsplit, total_append, total_cons]
    rw [hsplit] at hpos
    have hc0 := hpos c (List.mem_append_right before List.mem_cons_self)
    have hafter := total_nonneg fun d hd => hpos d (List.mem_append_right before (List.mem_cons_of_mem c hd))
    exact lt_add_of_pos_right _ (add_pos_of_pos_of_nonneg hc0 hafter)
  · have hne : sortedVocab exp qsort logits temperature top ≠ [] := by
      intro hnil
      obtain ⟨⟨t, ht, -⟩, -⟩ := hmax
      have := hperm.symm.subset (List.mem_map_of_mem ht)
      rw [hnil] at this
      exact absurd this List.not_mem_nil
    have hhead := head_prob hmax hspec hne
    rw [sub_self, zero_div, hone] at hhead
    rw [← total_perm hperm] at hc
    obtain ⟨before, after, hsplit, hmin, hmass⟩ := mem_nucleus hpos hhead one_pos htopP hminP hc
    exact ⟨before, after, hsplit, by rwa [mul_one] at hmin, hmass⟩

omit [IsStrictOrderedRing K] in
variable (temperature) in
/-- The full vocabulary leaves some candidate. -/
theorem keptFullVocab_ne_nil (hone : exp 0 = 1) (qsort : DescSort K) {logits : List (Logit K)}
    {top : K} (topP : K) {minP : K} (htop : (maxLogit (finiteTokens logits)).2 = top)
    (hmax : IsTop (finiteTokens logits) top) (hmin0 : 0 ≤ minP) (hminP : minP ≤ 1) :
    keptFullVocab exp qsort logits temperature topP minP ≠ [] := by
  obtain ⟨⟨t, ht, hlogit⟩, -⟩ := hmax
  have hmem : candidate exp temperature top t ∈ (finiteTokens logits).map (candidate exp temperature top) :=
    List.mem_map_of_mem ht
  unfold keptFullVocab
  dsimp only
  rw [htop, max_zero_clamp hmin0]
  split_ifs
  · refine List.ne_nil_of_mem (List.mem_filter.2 ⟨hmem, decide_eq_true (not_lt.2 ?_)⟩)
    rw [mem_candidates hmem]
    show minP ≤ exp ((t.2 - top) / temperature)
    rw [hlogit, sub_self, zero_div, hone]
    exact hminP
  · exact nucleus_ne_nil (List.ne_nil_of_mem ((qsort.perm _).symm.subset hmem))

omit [IsStrictOrderedRing K] in
theorem kept_pos (hexp : ∀ x, 0 < exp x) {tokens : List (Nat × K)} {top : K} {cs : List (Candidate K)}
    (h : ∀ c ∈ cs, c ∈ tokens.map (candidate exp temperature top)) : ∀ c ∈ cs, 0 < c.prob := fun c hc => by
  rw [mem_candidates (h c hc)]
  exact hexp _

variable (temperature) in
/-- The full vocabulary: the token is one of those that are left. -/
theorem sampleFullVocab_mem (hexp : ∀ x, 0 < exp x) (hone : exp 0 = 1) (qsort : DescSort K)
    {logits : List (Logit K)} {top topP minP u : K} (htop : (maxLogit (finiteTokens logits)).2 = top)
    (hmax : IsTop (finiteTokens logits) top) (htopP : 0 < topP) (hle : topP ≤ 1) (hmin0 : 0 ≤ minP) (hminP : minP ≤ 1)
    (hu : u < 1) :
    ∃ c ∈ keptFullVocab exp qsort logits temperature topP minP,
      sampleFullVocab exp qsort logits temperature topP minP u = c.id := by
  have hne := keptFullVocab_ne_nil temperature hone qsort topP htop hmax hmin0 hminP
  have hpos : ∀ c ∈ keptFullVocab exp qsort logits temperature topP minP, 0 < c.prob := by
    intro c hc
    obtain ⟨before, after, hsplit, -⟩ := mem_keptFullVocab hexp hone qsort htop hmax htopP hle hmin0 hminP hc
    have hmem : c ∈ sortedVocab exp qsort logits temperature top := by
      rw [hsplit]
      exact List.mem_append_right before List.mem_cons_self
    rw [mem_candidates ((qsort.perm _).subset hmem)]
    exact hexp _
  obtain ⟨c, hc, hwalk⟩ := walk_share hpos hne hu
  refine ⟨c, hc, ?_⟩
  have htokens : finiteTokens logits ≠ [] := by
    obtain ⟨⟨t, ht, -⟩, -⟩ := hmax
    exact List.ne_nil_of_mem ht
  have hall : ¬ total ((finiteTokens logits).map (candidate exp temperature (maxLogit (finiteTokens logits)).2)) ≤ 0 :=
    not_le.2 (total_pos (kept_pos hexp fun c hc => hc) (by simpa using htokens))
  unfold sampleFullVocab
  dsimp only
  rw [if_neg htokens]
  split_ifs with h1 h2
  · exact absurd h2 (not_le.2 (total_pos hpos hne))
  · rw [hwalk]
    rfl
  · rw [List.getLast?_eq_some_getLast hne]
    dsimp only
    rw [hwalk]
    rfl

/-- **Sampling** gives an admissible token.  The full vocabulary needs a finite logit above `DS4_NEG_INF`. -/
theorem sampled_admissible (hmono : StrictMono exp) (hexp : ∀ x, 0 < exp x) (hone : exp 0 = 1) (qsort : DescSort K)
    (logits : List (Logit K)) (hfin : finiteTokens logits ≠ []) (ht : 0 < temperature) (k : Int)
    (hbig : k ≤ 0 → ∃ t ∈ finiteTokens logits, negInf30 < t.2) {topP minP u : K} (htopP : 0 < topP) (hminP : minP ≤ 1)
    (hu : u < 1) :
    Admissible exp logits temperature (if k ≤ 0 then (finiteTokens logits).length else min k.toNat 1024) topP minP
      (sampleTopPMinP exp qsort logits temperature k topP minP u) := by
  obtain ⟨hp0, hp1, hple⟩ := clampTopP_spec htopP
  obtain ⟨hm0, hm1, hmle⟩ := clampMinP_spec hminP
  intro top hmax
  have hwone : exp ((top - top) / temperature) = 1 := by rw [sub_self, zero_div, hone]
  rw [hwone, mul_one]
  unfold sampleTopPMinP
  rw [if_neg (not_le.2 ht)]
  split_ifs with hk
  · have htop : (maxLogit (finiteTokens logits)).2 = top := (maxLogit_isTop (hbig hk)).unique hmax
    obtain ⟨c, hc, hid⟩ := sampleFullVocab_mem temperature hexp hone qsort htop hmax hp0 hp1 hm0 hm1 hu
    obtain ⟨before, after, hsplit, hmin, hmass⟩ := mem_keptFullVocab hexp hone qsort htop hmax hp0 hp1 hm0 hm1 hc
    have hspec := sortedVocab_spec exp temperature qsort logits top
    have hall : ∀ d ∈ sortedVocab exp qsort logits temperature top, 0 < d.prob := kept_pos hexp hspec.mem
    have hsorted := sorted_prob hmono ht (fun d hd => mem_candidates (hspec.mem d hd)) hspec.sorted
    have hbound := hmass.trans_le (mul_le_mul_of_nonneg_right hple (total_nonneg hall))
    rw [hsplit] at hspec hsorted hbound
    exact ⟨before, c, after, hspec, hsorted, hid.symm, hmle.trans hmin, hbound⟩
  · obtain ⟨top', hmax', hhead, hspec⟩ := topCandidates_spec exp temperature hfin (not_le.1 hk)
    rw [hmax'.unique hmax] at hhead hspec
    have hall : ∀ d ∈ topCandidates exp logits temperature k, 0 < d.prob := kept_pos hexp hspec.mem
    have hne : topCandidates exp logits temperature k ≠ [] := by
      intro hnil
      rw [hnil] at hhead
      exact absurd hhead nofun
    have hfirst := head_prob hmax hspec hne
    rw [hwone] at hfirst
    have hkept : ∀ c ∈ keptTopPMinP exp logits temperature k (clampTopP topP) (clampMinP minP), 0 < c.prob :=
      fun c hc => hall c (List.mem_of_mem_take hc)
    have hkne : keptTopPMinP exp logits temperature k (clampTopP topP) (clampMinP minP) ≠ [] := nucleus_ne_nil hne
    obtain ⟨c, hc, hwalk⟩ := walk_share hkept hkne hu
    obtain ⟨before, after, hsplit, hmin, hmass⟩ := mem_nucleus hall hfirst one_pos hp0 hm1 hc
    have hsorted := sorted_prob hmono ht (fun d hd => mem_candidates (hspec.mem d hd)) hspec.sorted
    have hbound := hmass.trans_le (mul_le_mul_of_nonneg_right hple (total_nonneg hall))
    rw [mul_one] at hmin
    refine ⟨before, c, after, hsplit ▸ hspec, hsplit ▸ hsorted, ?_, hmle.trans hmin, hsplit ▸ hbound⟩
    dsimp only
    generalize hcands : topCandidates exp logits temperature k = cands at hne hall
    cases cands with
    | nil => exact absurd rfl hne
    | cons d ds =>
      dsimp only
      rw [if_neg (not_le.2 (total_pos hall hne)), List.getLast?_eq_some_getLast hkne]
      dsimp only
      rw [hwalk]
      rfl

/-! ### The two paths -/

/-- What the cut depends on. -/
def Candidate.val (c : Candidate K) : K × K := (c.logit, c.prob)

omit [Field K] [LinearOrder K] [IsStrictOrderedRing K] in
theorem map_prob_of_val {as bs : List (Candidate K)} (h : as.map Candidate.val = bs.map Candidate.val) :
    as.map Candidate.prob = bs.map Candidate.prob := by
  have hcomp := congrArg (List.map Prod.snd) h
  rwa [List.map_map, List.map_map] at hcomp

omit [IsStrictOrderedRing K] in
theorem nucleus_congr {as bs : List (Candidate K)} (h : as.map Candidate.val = bs.map Candidate.val) (sum topP minP : K) :
    (nucleus sum topP minP as).map Candidate.val = (nucleus sum topP minP bs).map Candidate.val := by
  unfold nucleus
  rw [map_prob_of_val h, List.map_take, List.map_take, h]

omit [LinearOrder K] [IsStrictOrderedRing K] in
/-- The probabilities are the ones of the logits. -/
theorem map_val {top : K} {cs : List (Candidate K)} (h : ∀ c ∈ cs, c.prob = exp ((c.logit - top) / temperature)) :
    cs.map Candidate.val = (cs.map Candidate.logit).map fun l => (l, exp ((l - top) / temperature)) := by
  rw [List.map_map]
  exact List.map_congr_left fun c hc => congrArg (Prod.mk c.logit) (h c hc)

omit [Field K] [IsStrictOrderedRing K] in
/-- Two sorted orders of the same candidates have the same logits. -/
theorem map_logit_eq {as bs : List (Candidate K)} (ha : as.Pairwise (fun a b => b.logit ≤ a.logit))
    (hb : bs.Pairwise (fun a b => b.logit ≤ a.logit)) (h : as.Perm bs) :
    as.map Candidate.logit = bs.map Candidate.logit :=
  List.Perm.eq_of_pairwise (fun _ _ _ _ hab hba => le_antisymm hba hab) (List.pairwise_map.2 ha)
    (List.pairwise_map.2 hb) (h.map Candidate.logit)

/-- At the whole mass the cut is by `min_p` alone. -/
theorem take_filteredCount {sum minProb : K} (hsum : 0 < sum) {first : Bool} {acc : K} {cs : List (Candidate K)}
    (hacc : acc + total cs = sum) (hpos : ∀ c ∈ cs, 0 < c.prob) (hsorted : cs.Pairwise (fun a b => b.prob ≤ a.prob))
    (hfirst : first = true → ∀ c ∈ cs.head?, ¬ c.prob / sum < minProb) :
    cs.take (filteredCount sum minProb 1 first acc (cs.map Candidate.prob)) =
      cs.filter fun c => ¬ c.prob / sum < minProb := by
  induction cs generalizing first acc with
  | nil => rfl
  | cons c cs ih =>
    obtain ⟨hall, htail⟩ := List.pairwise_cons.1 hsorted
    rw [total_cons] at hacc
    have hkeep : ¬ (first = false ∧ c.prob / sum < minProb) →
        ((c :: cs).filter fun c => ¬ c.prob / sum < minProb) = c :: cs.filter fun c => ¬ c.prob / sum < minProb := by
      intro hdrop
      refine List.filter_cons_of_pos (decide_eq_true ?_)
      cases first with
      | true => exact hfirst rfl c rfl
      | false => exact fun hlt => hdrop ⟨rfl, hlt⟩
    rw [List.map_cons, filteredCount]
    split_ifs with hdrop hstop
    · -- every later candidate is no more probable
      rw [List.take_zero, List.filter_eq_nil_iff.2]
      intro d hd
      have hle : d.prob ≤ c.prob := by
        rcases List.mem_cons.1 hd with rfl | hd
        · exact le_refl _
        · exact hall d hd
      simpa using lt_of_le_of_lt (div_le_div_of_nonneg_right hle hsum.le) hdrop.2
    · -- the mass is only reached by the last candidate
      have hnil : cs = [] := by
        by_contra hne
        have hrest := total_pos (fun d hd => hpos d (List.mem_cons_of_mem c hd)) hne
        rw [one_le_div hsum, ← hacc, ← add_assoc] at hstop
        exact absurd hstop (not_le.2 (lt_add_of_pos_right _ hrest))
      rw [hkeep hdrop, hnil]
      rfl
    · have hrest : cs.take (filteredCount sum minProb 1 false (acc + c.prob) (cs.map Candidate.prob)) = _ :=
        ih (by rwa [add_assoc]) (fun d hd => hpos d (List.mem_cons_of_mem c hd)) htail
          fun h => absurd h Bool.false_ne_true
      rw [hkeep hdrop, Nat.add_comm, List.take_succ_cons, hrest]

theorem nucleus_one {minP : K} {cs : List (Candidate K)} (hpos : ∀ c ∈ cs, 0 < c.prob) (hne : cs ≠ [])
    (hsorted : cs.Pairwise (fun a b => b.prob ≤ a.prob)) (hhead : (cs.map Candidate.prob).headD 0 = 1)
    (hminP : minP ≤ 1) : nucleus (total cs) 1 minP cs = cs.filter fun c => ¬ c.prob < minP := by
  have hsum := total_pos hpos hne
  have htest : ∀ p : K, p / total cs < 1 / total cs * minP ↔ p < minP := fun p => by
    rw [div_mul_eq_mul_div, one_mul, div_lt_div_iff_of_pos_right hsum]
  unfold nucleus
  dsimp only
  rw [hhead, take_filteredCount hsum (zero_add _) hpos hsorted]
  · exact List.filter_congr fun c _ => by rw [decide_eq_decide, htest]
  · intro _ c hc
    rw [htest, not_lt]
    cases cs with
    | nil => exact absurd rfl hne
    | cons d ds =>
      have hd : d.prob = 1 := hhead
      rw [← Option.some.inj hc, hd]
      exact hminP

/-- What the tokens that are left are chosen with. -/
def shares (kept : List (Candidate K)) : List (K × K) := kept.map fun c => (c.logit, c.prob / total kept)

omit [LinearOrder K] [IsStrictOrderedRing K] in
theorem shares_eq_of_val {as bs : List (Candidate K)} (h : as.map Candidate.val = bs.map Candidate.val) :
    shares as = shares bs := by
  have htotal : total as = total bs := congrArg List.sum (map_prob_of_val h)
  have hmap := congrArg (List.map fun x : K × K => (x.1, x.2 / total bs)) h
  rw [List.map_map, List.map_map] at hmap
  unfold shares
  rw [htotal]
  exact hmap

omit [LinearOrder K] [IsStrictOrderedRing K] in
theorem shares_perm {as bs : List (Candidate K)} (h : as.Perm bs) : (shares as).Perm (shares bs) := by
  unfold shares
  rw [total_perm h]
  exact h.map _

/-- **The paths agree**: with all tokens as the largest ones, the same logits are left with the same probabilities. -/
theorem paths_agree (hmono : StrictMono exp) (hexp : ∀ x, 0 < exp x) (hone : exp 0 = 1) (qsort : DescSort K)
    {logits : List (Logit K)} (hvocab : logits.length ≤ 1024) (ht : 0 < temperature)
    (hbig : ∃ t ∈ finiteTokens logits, negInf30 < t.2) {topP minP : K} (hle : topP ≤ 1) (hmin0 : 0 ≤ minP)
    (hminP : minP ≤ 1) :
    (shares (keptTopPMinP exp logits temperature logits.length topP minP)).Perm
      (shares (keptFullVocab exp qsort logits temperature topP minP)) := by
  have hmax := maxLogit_isTop hbig
  obtain ⟨t, htok, -⟩ := hbig
  have hfin := List.ne_nil_of_mem htok
  have hpos : 0 < (logits.length : Int) := by
    have := List.length_pos_iff.2 hfin
    have := length_finiteTokens logits
    omega
  obtain ⟨top, htop, hhead, hspec⟩ := topCandidates_spec exp temperature hfin hpos
  obtain rfl := htop.unique hmax
  have hlen : ((finiteTokens logits).map (candidate exp temperature (maxLogit (finiteTokens logits)).2)).length ≤
      min (logits.length : Int).toNat 1024 := by
    have := length_finiteTokens logits
    rw [List.length_map]
    omega
  have hperm := hspec.perm hlen
  have hall : ∀ d ∈ topCandidates exp logits temperature logits.length, 0 < d.prob := kept_pos hexp hspec.mem
  have hne : topCandidates exp logits temperature logits.length ≠ [] := by
    intro hnil
    rw [hnil] at hhead
    exact absurd hhead nofun
  have hprob := fun d hd => mem_candidates (hspec.mem d hd)
  have hfirst := head_prob htop hspec hne
  rw [sub_self, zero_div, hone] at hfirst
  unfold keptTopPMinP keptFullVocab
  dsimp only
  rw [max_zero_clamp hmin0]
  split_ifs with h1
  · rw [le_antisymm hle h1, nucleus_one hall hne (sorted_prob hmono ht hprob hspec.sorted) hfirst hminP]
    exact shares_perm (hperm.filter _)
  · have hsort := (qsort.perm ((finiteTokens logits).map
      (candidate exp temperature (maxLogit (finiteTokens logits)).2)))
    have hval : (topCandidates exp logits temperature logits.length).map Candidate.val =
        (qsort.sort ((finiteTokens logits).map
          (candidate exp temperature (maxLogit (finiteTokens logits)).2))).map Candidate.val := by
      rw [map_val hprob, map_val fun d hd => mem_candidates (hsort.subset hd),
        map_logit_eq hspec.sorted (qsort.sorted _) (hperm.trans hsort.symm)]
    rw [total_perm hperm]
    exact (shares_eq_of_val (nucleus_congr hval _ _ _)) ▸ List.Perm.refl _

omit [IsStrictOrderedRing K] in
theorem not_admissible_of_prob {logits : List (Logit K)} (top : K) (hmax : IsTop (finiteTokens logits) top) {k : Nat}
    {topP minP : K} {token : Nat}
    (h : ∀ t ∈ finiteTokens logits, t.1 = token →
      exp ((t.2 - top) / temperature) < minP * exp ((top - top) / temperature)) :
    ¬ Admissible exp logits temperature k topP minP token := by
  intro hadm
  obtain ⟨before, c, after, htop, -, hid, hmin, -⟩ := hadm top hmax
  obtain ⟨t, ht, rfl⟩ := List.mem_map.1 (htop.mem c (List.mem_append_right before List.mem_cons_self))
  exact absurd hmin (not_le.2 (h t ht hid))

theorem not_admissible_of_topP (hexp : ∀ x, 0 < exp x) {logits : List (Logit K)} (top : K)
    (hmax : IsTop (finiteTokens logits) top) {k : Nat} {topP minP : K} {token : Nat} (h : topP ≤ 0) :
    ¬ Admissible exp logits temperature k topP minP token := by
  intro hadm
  obtain ⟨before, c, after, htop, -, -, -, hmass⟩ := hadm top hmax
  have hpos := kept_pos hexp htop.mem
  have hbefore := total_nonneg fun b hb => hpos b (List.mem_append_left _ hb)
  exact absurd (hbefore.trans_lt hmass) (not_lt.2 (mul_nonpos_of_nonpos_of_nonneg h (total_nonneg hpos)))

omit [IsStrictOrderedRing K] in
variable (exp temperature) in
/-- More tokens than the arrays hold are not left by the path for `top_k`. -/
theorem length_keptTopPMinP (logits : List (Logit K)) (k : Int) (topP minP : K) :
    (keptTopPMinP exp logits temperature k topP minP).length ≤ 1024 := by
  have htop := (topK_spec Prod.snd (clampTopK k logits.length) (finiteTokens logits)).length
  unfold keptTopPMinP nucleus topCandidates
  dsimp only
  rw [List.length_take, List.length_map, htop]
  unfold clampTopK
  omega

omit [IsStrictOrderedRing K] in
theorem length_keptFullVocab (hexp : ∀ x, 0 < exp x) (qsort : DescSort K) (logits : List (Logit K)) :
    (keptFullVocab exp qsort logits temperature 1 0).length = (finiteTokens logits).length := by
  unfold keptFullVocab
  dsimp only
  rw [if_pos (le_refl 1), max_zero_clamp (le_refl 0), List.filter_eq_self.2, List.length_map]
  intro c hc
  rw [mem_candidates hc]
  exact decide_eq_true (not_lt.2 (hexp _).le)

/-! ### Rational samples -/

/-- A strictly increasing positive function that is 1 at 0. -/
def ratExp (x : ℚ) : ℚ := if x < 0 then 1 / (1 - x) else 1 + x

theorem ratExp_pos (x : ℚ) : 0 < ratExp x := by
  unfold ratExp
  split_ifs with h
  · exact one_div_pos.2 (by linarith)
  · linarith

theorem ratExp_strictMono : StrictMono ratExp := by
  intro x y hxy
  unfold ratExp
  split_ifs with hx hy hy
  · exact one_div_lt_one_div_of_lt (by linarith) (by linarith)
  · have : 1 / (1 - x) < 1 := (div_lt_one (by linarith)).2 (by linarith)
    linarith
  · linarith
  · linarith

/-- `qsort` as a stable sort. -/
def mergeSorted : DescSort ℚ where
  sort cs := cs.mergeSort fun a b => b.logit ≤ a.logit
  perm cs := List.mergeSort_perm cs _
  sorted cs := by
    have h : (cs.mergeSort fun a b => decide (b.logit ≤ a.logit)).Pairwise
        (fun a b => decide (b.logit ≤ a.logit) = true) := List.pairwise_mergeSort
      (fun a b c hab hbc => by simp only [decide_eq_true_eq] at *; exact le_trans hbc hab)
      (fun a b => by simpa using le_total b.logit a.logit) cs
    exact h.imp fun hab => of_decide_eq_true hab

instance (tokens : List (Nat × ℚ)) (top : ℚ) : Decidable (IsTop tokens top) := inferInstanceAs (Decidable (_ ∧ _))

end DS4.Engine.Sampler
