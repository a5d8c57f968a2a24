import DS4.KvStore.Cache
import Mathlib.Algebra.Order.Group.Nat

namespace DS4.KvStore

/-!
# The KV cache — eviction, turn by turn

`ds4_kvstore_evict` where files may stay: a victim whose `unlink` fails is dropped from the list, and
the running total is set to zero, so that the loop ends.

* `evictEntries`, `evictPass` — the turns, over the entries and over the directory.
* `evict_eq_pass` — where every `unlink` succeeds this is `evict`.
* `Postcondition` — what a pass leaves; `evict_postcondition`.
* `evict_total_not_exact` — where the running total is not the sum of the sizes.
-/

open DS4.Lib

/-! ### Passes -/

/-- What a pass did, and the entries that are left in the list. -/
structure Pass where
  turns : List (Turn Entry)
  kept : List Entry

/-- The protection that counts. -/
def protectedBy (kc : Store) (entries : List Entry) (protectedSha : Option (List UInt8)) : Option (List UInt8) :=
  protectedSha.filter (protects kc entries)

/-- `ds4_kvstore_evict` behind `kv_cache_refresh`; `unlink` says whether a file goes away. -/
def evictEntries (env : Env) (unlink : Entry → Bool) (kc : Store) (protectedSha : Option (List UInt8))
    (entries : List Entry) : Pass :=
  let total := (entries.map Entry.fileSize).sum % (UINT64_MAX + 1)
  let run := turns Entry.fileSize (evictsBefore env (protectedBy kc entries protectedSha)) unlink kc.budgetBytes
    entries.length total entries
  ⟨run.1, run.2⟩

/-- `ds4_kvstore_evict`: what it did, and the directory behind it. -/
def evictPass (env : Env) (unlink : Entry → Bool) (kc : Store) (protectedSha : Option (List UInt8)) (dir : Dir) :
    Pass × Dir :=
  if !kc.enabled || kc.budgetBytes == 0 then (⟨[], refresh env dir⟩, dir)
  else
    let pass := evictEntries env unlink kc protectedSha (refresh env dir)
    (pass, pass.turns.foldl (fun d t => if t.gone then d.erase t.victim.name else d) dir)

variable {env : Env} {kc : Store} {dir : Dir} {unlink : Entry → Bool} {protectedSha : Option (List UInt8)}
  {entries : List Entry}

/-- Where every `unlink` succeeds, the directory is that of `evict`. -/
theorem evict_eq_pass (env : Env) (kc : Store) (protectedSha : Option (List UInt8)) (dir : Dir) :
    (evictPass env (fun _ => true) kc protectedSha dir).2 = evict env kc protectedSha dir := by
  have hfold : ∀ (ts : List (Turn Entry)) (d : Dir), (∀ t ∈ ts, t.gone = true) →
      ts.foldl (fun d t => if t.gone then d.erase t.victim.name else d) d =
        (ts.map Turn.victim).foldl (fun d e => d.erase e.name) d := by
    intro ts
    induction ts with
    | nil => exact fun _ _ => rfl
    | cons t ts ih =>
      intro d hall
      rw [List.foldl_cons, List.map_cons, List.foldl_cons, if_pos (hall t List.mem_cons_self)]
      exact ih _ fun t' ht' => hall t' (List.mem_cons_of_mem t ht')
  unfold evictPass evict
  split
  · rfl
  · have hgone : ∀ t ∈ (evictEntries env (fun _ => true) kc protectedSha (refresh env dir)).turns,
        t.gone = true := fun t ht => gone_of_mem_turns ht
    have hmap : (evictEntries env (fun _ => true) kc protectedSha (refresh env dir)).turns.map Turn.victim =
        removed Entry.fileSize (evictsBefore env (protectedBy kc (refresh env dir) protectedSha)) kc.budgetBytes
          (refresh env dir).length (((refresh env dir).map Entry.fileSize).sum % (UINT64_MAX + 1))
          (refresh env dir) := map_victim_turns _ _ _ fun _ => rfl
    dsimp only
    rw [hfold _ _ hgone, hmap]
    rfl

/-! ### What a pass leaves -/

theorem strictOrder_evictsBefore (env : Env) (protectedSha : Option (List UInt8)) :
    StrictOrder (evictsBefore env protectedSha) where
  asymm a b h := by
    simp only [evictsBefore, Bool.or_eq_true, Bool.and_eq_true, decide_eq_true_eq, beq_iff_eq] at h
    simp only [evictsBefore, Bool.or_eq_false_iff, Bool.and_eq_false_iff, decide_eq_false_iff_not,
      beq_eq_false_iff_ne]
    omega
  trans a b c h h' := by
    simp only [evictsBefore, Bool.or_eq_false_iff, Bool.and_eq_false_iff, decide_eq_false_iff_not,
      beq_eq_false_iff_ne] at h h' ⊢
    omega

/-- The sizes of some entries. -/
def sizes (es : List Entry) : Nat := (es.map Entry.fileSize).sum

/-- What a pass over some entries leaves.  The entries of the protected checkpoint fit alone where removing
    others is enough. -/
structure Postcondition (env : Env) (kc : Store) (protectedSha : Option (List UInt8)) (entries : List Entry)
    (p : Pass) : Prop where
  /-- What is left fits, unless a file stayed or only the protected checkpoint is left. -/
  fits : sizes p.kept ≤ kc.budgetBytes ∨ (∃ t ∈ p.turns, t.gone = false) ∨ ∀ e ∈ p.kept, protectedSha = some e.sha
  protects : ∀ sha, protectedSha = some sha → sizes (entries.filter fun e => e.sha == sha) ≤ kc.budgetBytes →
    ∀ t ∈ p.turns, t.victim.sha ≠ sha
  /-- The victim has the least score, and of those with it the least recent use. -/
  order : ∀ t ∈ p.turns, ∀ x ∈ t.items,
    evictsBefore env (protectedBy kc entries protectedSha) x t.victim = false
  needed : ∀ t ∈ p.turns, kc.budgetBytes < sizes t.items
  /-- Every entry is taken once or left. -/
  parts : entries.Perm (p.turns.map Turn.victim ++ p.kept)

/-- The running total is the sum of the sizes before and behind every turn. -/
def TotalExact (p : Pass) : Prop := ∀ t ∈ p.turns, t.total = sizes t.items ∧ t.left = sizes t.rest

/-- The running total is the sum of the sizes before every turn, and behind it where the file went away; a
    file that stayed ends the pass with a total of zero. -/
def TotalKept (p : Pass) : Prop :=
  (∀ t ∈ p.turns, t.total = sizes t.items ∧ (t.gone = true → t.left = sizes t.rest) ∧
    (t.gone = false → t.left = 0)) ∧ p.turns.Pairwise fun t _ => t.gone = true

/-- A victim of the protected checkpoint is taken among entries of that checkpoint only. -/
theorem all_protected {t : Turn Entry} {sha : List UInt8} (hsize : 0 < t.victim.fileSize)
    (hbest : ∀ x ∈ t.items, evictsBefore env (some sha) x t.victim = false) (hsha : t.victim.sha = sha) :
    ∀ x ∈ t.items, x.sha = sha := by
  intro x hx
  by_contra hne
  have hx' := hbest x hx
  have hmax : entryEvictionScore env (some sha) t.victim = DBL_MAX := by
    rw [entryEvictionScore, if_neg (by omega), if_pos (by rw [hsha])]
  have hlt : entryEvictionScore env (some sha) x < DBL_MAX := by
    rw [entryEvictionScore, if_neg fun h : some sha = some x.sha => hne (Option.some.inj h).symm]
    split
    · decide
    · exact env.score_lt x
  simp only [evictsBefore, Bool.or_eq_false_iff, decide_eq_false_iff_not] at hx'
  omega

/-- The protection counts when the entries of the checkpoint fit. -/
theorem protectedBy_of_fits {sha : List UInt8}
    (hfits : sizes (entries.filter fun e => e.sha == sha) ≤ kc.budgetBytes) :
    protectedBy kc entries (some sha) = some sha := by
  have hprot : protects kc entries sha = true := by
    unfold protects
    split
    · rename_i e he
      have hmem : e ∈ entries.filter fun e => e.sha == sha :=
        List.mem_filter.mpr ⟨List.mem_of_find?_eq_some he, by have hb := List.find?_some he; exact hb⟩
      have hle : e.fileSize ≤ sizes (entries.filter fun e => e.sha == sha) :=
        List.single_le_sum (fun _ _ => Nat.zero_le _) _ (List.mem_map_of_mem hmem)
      exact decide_eq_true (hle.trans hfits)
    · rfl
  rw [protectedBy, Option.filter_some, if_pos hprot]

/-- **A pass** over entries that are not empty and whose sizes can be added up. -/
theorem evictEntries_postcondition (env : Env) (unlink : Entry → Bool) (kc : Store)
    (protectedSha : Option (List UInt8)) (hpos : ∀ e ∈ entries, 0 < e.fileSize)
    (hsum : sizes entries ≤ UINT64_MAX) :
    Postcondition env kc protectedSha entries (evictEntries env unlink kc protectedSha entries) ∧
      TotalKept (evictEntries env unlink kc protectedSha entries) := by
  have htotal : (entries.map Entry.fileSize).sum % (UINT64_MAX + 1) = (entries.map Entry.fileSize).sum :=
    Nat.mod_eq_of_lt (Nat.lt_succ_of_le hsum)
  obtain ⟨hsound, hperm, hpair, hfits⟩ := @turns_spec Entry _ Entry.fileSize unlink
    (strictOrder_evictsBefore env (protectedBy kc entries protectedSha)) kc.budgetBytes entries.length _ entries
    (Nat.le_refl _) htotal
  refine ⟨⟨?_, ?_, fun t ht => (hsound t ht).1.best, fun t ht => ?_, hperm⟩, fun t ht => ?_, hpair⟩
  · by_cases hall : ∀ t ∈ (evictEntries env unlink kc protectedSha entries).turns, t.gone = true
    · exact Or.inl (hfits hall)
    · simp only [not_forall, Bool.not_eq_true] at hall
      obtain ⟨t, ht, hgone⟩ := hall
      exact Or.inr (Or.inl ⟨t, ht, hgone⟩)
  · rintro sha rfl hbudget t ht hsha
    obtain ⟨hs, hsub⟩ := hsound t ht
    have hvictim : t.victim ∈ t.items := hs.perm.mem_iff.mpr List.mem_cons_self
    have hbest := hs.best
    rw [protectedBy_of_fits hbudget] at hbest
    have hall := all_protected (hpos _ (hsub.subset hvictim)) hbest hsha
    -- so the items of the turn are entries of the checkpoint, and fit
    have hfilter : (t.items.filter fun e => e.sha == sha) = t.items :=
      List.filter_eq_self.mpr fun x hx => beq_iff_eq.mpr (hall x hx)
    have hsub' := (hsub.filter fun e => e.sha == sha).map Entry.fileSize
    rw [hfilter] at hsub'
    have hle : sizes t.items ≤ sizes (entries.filter fun e => e.sha == sha) := hsub'.sum_le_sum fun _ _ => Nat.zero_le _
    have hneeded := hs.needed
    rw [hs.total] at hneeded
    unfold sizes at *
    omega
  · rw [sizes, ← (hsound t ht).1.total]
    exact (hsound t ht).1.needed
  · exact ⟨(hsound t ht).1.total, (hsound t ht).1.left_gone, (hsound t ht).1.left_kept⟩

theorem fileSize_pos_of_mem_refresh {e : Entry} (h : e ∈ refresh env dir) : 0 < e.fileSize := by
  obtain ⟨bytes, -, -, hsize, hw⟩ := of_mem_refresh h
  have hlen := hw.size
  omega

/-- **Eviction.** -/
theorem evict_postcondition (env : Env) (unlink : Entry → Bool) (kc : Store) (protectedSha : Option (List UInt8))
    (dir : Dir) (henabled : kc.enabled = true) (hbudget : 0 < kc.budgetBytes)
    (hsum : sizes (refresh env dir) ≤ UINT64_MAX) :
    Postcondition env kc protectedSha (refresh env dir) (evictPass env unlink kc protectedSha dir).1 ∧
      TotalKept (evictPass env unlink kc protectedSha dir).1 := by
  have hcond : (!kc.enabled || kc.budgetBytes == 0) = false := by
    rw [henabled]
    simp only [Bool.not_true, Bool.false_or, beq_eq_false_iff_ne]
    omega
  unfold evictPass
  rw [hcond, if_neg Bool.false_ne_true]
  exact evictEntries_postcondition env unlink kc protectedSha (fun _ he => fileSize_pos_of_mem_refresh he) hsum

/-- A directory listed in its own order, where only use decides. -/
def idleEnv : Env where
  list := id
  list_perm := id_perm
  now := 0
  score := fun _ => 0
  score_lt := zero_lt_DBL_MAX

/-- A cache of fifty bytes. -/
def smallStore : Store where
  enabled := true
  budgetBytes := 50
  rejectDifferentQuant := false
  opt := ⟨1, 0⟩
  continuedLastStoreTokens := 0

/-- A directory with one file, which has no text and no payload. -/
def oneFileDir : Dir :=
  (∅ : Dir).insert (List.replicate 40 0x30 ++ kvSuffix) (fillHeader 2 0 0 5 0 100 0 0 0 ++ [0, 0, 0, 0])

theorem evict_postcondition_sample :
    sizes (refresh idleEnv oneFileDir) = 52 ∧
      Postcondition idleEnv smallStore none (refresh idleEnv oneFileDir)
        (evictPass idleEnv (fun _ => true) smallStore none oneFileDir).1 ∧
      TotalKept (evictPass idleEnv (fun _ => true) smallStore none oneFileDir).1 :=
  have hsize : sizes (refresh idleEnv oneFileDir) = 52 := by decide +kernel
  ⟨hsize, evict_postcondition idleEnv (fun _ => true) smallStore none oneFileDir rfl (by decide)
    (by rw [hsize]; decide)⟩

/-- An entry of so many bytes. -/
def entryOfSize (n : Nat) : Entry :=
  { headerOf [] with sha := [], name := [], fileSize := n }

/-- Two files that cannot be removed, and three whose sizes add up to more than 64 bits hold. -/
theorem evict_total_not_exact :
    ¬ TotalExact (evictEntries idleEnv (fun _ => false) smallStore none [entryOfSize 100, entryOfSize 100]) ∧
      ¬ TotalExact (evictEntries idleEnv (fun _ => true) smallStore none
        (List.replicate 3 (entryOfSize 0x7fffffffffffffff))) := by
  unfold TotalExact
  decide +kernel

end DS4.KvStore
