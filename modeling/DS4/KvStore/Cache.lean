import DS4.KvStore.File
import DS4.Lib.Evict

namespace DS4.KvStore

/-!
# The KV cache — the directory, and making room

The cache is a directory of files; the list of entries is read anew whenever it is used, so it is
no part of the state.  File operations succeed, and only the cache writes to the directory.

* `Dir`, `Env` — the directory, and what a call gets from outside: the order in which it is
  listed, the time, the values of the eviction score.
* `refresh` — the entries; `Clean` — every cache file is one.
* `evict` — files are removed until the rest fits; `evict_spec`.
-/

open DS4.Lib

/-- The files of the cache directory. -/
abbrev Dir := AList fun _ : Name => List UInt8

/-- `DBL_MAX`; a double that is not negative compares as its bits do. -/
def DBL_MAX : Nat := 0x7fefffffffffffff

/-- A score of zero is not a protected one. -/
theorem zero_lt_DBL_MAX (_ : Entry) : 0 < DBL_MAX := by decide

/-- A directory may be listed in its own order. -/
theorem id_perm (fs : List ((_ : Name) × List UInt8)) : (id fs).Perm fs := List.Perm.refl fs

/-- What a call depends on besides its arguments. -/
structure Env where
  /-- `readdir`: the files in some order. -/
  list : List (Sigma fun _ : Name => List UInt8) → List (Sigma fun _ : Name => List UInt8)
  list_perm : ∀ fs, (list fs).Perm fs
  /-- `time(NULL)` -/
  now : Nat
  /-- The bits of `(effective_hits + 1.0) * tokens / file_size`. -/
  score : Entry → Nat
  score_lt : ∀ e, score e < DBL_MAX

/-- `ds4_kvstore_options`, as far as stores and loads depend on them. -/
structure Options where
  minTokens : Int
  coldMaxTokens : Int

/-- `ds4_kvstore` -/
structure Store where
  enabled : Bool
  budgetBytes : Nat
  rejectDifferentQuant : Bool
  opt : Options
  continuedLastStoreTokens : Int

/-- The entry of a file, if it is a cache file that can be read. -/
def entryOf (f : Sigma fun _ : Name => List UInt8) : Option Entry :=
  match shaHexName f.1 with
  | none     => none
  | some sha => readEntryFile f.1 sha f.2

/-- `kv_cache_refresh`, for a cache that is enabled. -/
def refresh (env : Env) (dir : Dir) : List Entry := (env.list dir.entries).filterMap entryOf

/-- `ds4_kvstore_entry_eviction_score` -/
def entryEvictionScore (env : Env) (protectedSha : Option (List UInt8)) (e : Entry) : Nat :=
  if e.fileSize = 0 then 0
  else if protectedSha = some e.sha then DBL_MAX
  else env.score e

/-- An entry that goes before `b`. -/
def evictsBefore (env : Env) (protectedSha : Option (List UInt8)) (e b : Entry) : Bool :=
  let score := entryEvictionScore env protectedSha
  score e < score b || (score e == score b && e.lastUsed < b.lastUsed)

/-- A file that is larger than the budget is not protected. -/
def protects (kc : Store) (entries : List Entry) (sha : List UInt8) : Bool :=
  match entries.find? fun e => e.sha == sha with
  | some e => e.fileSize ≤ kc.budgetBytes
  | none   => true

/-- `ds4_kvstore_evict` -/
def evict (env : Env) (kc : Store) (protectedSha : Option (List UInt8)) (dir : Dir) : Dir :=
  if !kc.enabled || kc.budgetBytes == 0 then dir
  else
    let entries := refresh env dir
    let total := (entries.map Entry.fileSize).sum % (UINT64_MAX + 1)
    let protectedSha := protectedSha.filter (protects kc entries)
    (removed Entry.fileSize (evictsBefore env protectedSha) kc.budgetBytes entries.length total
      entries).foldl (fun d e => d.erase e.name) dir

/-- `DS4_KVSTORE_DEFAULT_MB` -/
def DS4_KVSTORE_DEFAULT_MB : Nat := 4096

/-- `ds4_kvstore_open` -/
def openCache (env : Env) (budgetMb : Nat) (rejectDifferentQuant : Bool) (opt : Options) (dir : Dir) :
    Store × Dir :=
  let budgetMb := if budgetMb = 0 then DS4_KVSTORE_DEFAULT_MB else budgetMb
  let kc : Store :=
    { enabled := true
      budgetBytes := budgetMb * 1024 * 1024 % (UINT64_MAX + 1)
      rejectDifferentQuant := rejectDifferentQuant
      opt := opt
      continuedLastStoreTokens := 0 }
  (kc, evict env kc none dir)

/-! ### Cache files -/

/-- The size that a file counts with: cache files count, whether they can be read or not. -/
def kvSize (name : Name) (bytes : List UInt8) : Nat :=
  if (shaHexName name).isSome then bytes.length else 0

/-- The total size of the cache files. -/
def kvBytes (dir : Dir) : Nat := weigh kvSize dir

/-- A cache file is whole, and named in lower case. -/
def CleanFile (name : Name) (bytes : List UInt8) : Prop :=
  ∀ sha, shaHexName name = some sha → name = pathForSha sha ∧ ∃ e, Whole e bytes

/-- Every cache file of the directory is clean. -/
def Clean (dir : Dir) : Prop := ∀ name bytes, dir.lookup name = some bytes → CleanFile name bytes

variable {env : Env} {kc : Store} {dir : Dir} {name : Name} {bytes : List UInt8}

theorem mem_entries {f : Sigma fun _ : Name => List UInt8} :
    f ∈ dir.entries ↔ dir.lookup f.1 = some f.2 :=
  (List.mem_dlookup_iff dir.nodupKeys).symm

theorem Clean.erase (h : Clean dir) (name : Name) : Clean (dir.erase name) := by
  intro n b hb
  by_cases hn : n = name
  · rw [hn, AList.lookup_erase] at hb
    cases hb
  · rw [AList.lookup_erase_ne hn] at hb
    exact h n b hb

theorem Clean.insert (h : Clean dir) (hf : CleanFile name bytes) : Clean (dir.insert name bytes) := by
  intro n b hb
  by_cases hn : n = name
  · subst hn
    rw [AList.lookup_insert] at hb
    cases hb
    exact hf
  · rw [AList.lookup_insert_ne hn] at hb
    exact h n b hb

theorem Clean.foldl_erase (h : Clean dir) (es : List Entry) :
    Clean (es.foldl (fun d e => d.erase e.name) dir) := by
  induction es generalizing dir with
  | nil => exact h
  | cons e es ih => exact ih (h.erase e.name)

theorem Clean.evict (h : Clean dir) (protectedSha : Option (List UInt8)) :
    Clean (evict env kc protectedSha dir) := by
  unfold KvStore.evict
  split
  · exact h
  · exact h.foldl_erase _

/-! ### Entries of a clean directory -/

theorem entryOf_eq_some {f : Sigma fun _ : Name => List UInt8} {e : Entry} (h : entryOf f = some e) :
    e.name = f.1 ∧ shaHexName f.1 = some e.sha ∧ e.fileSize = f.2.length ∧ Whole e.toHeader f.2 := by
  unfold entryOf at h
  split at h
  · cases h
  · rename_i sha hsha
    obtain ⟨hw, he, hname, hsize⟩ := (readEntryFile_eq_some_iff).mp h
    exact ⟨hname, by rw [hsha, he], hsize, hw⟩

theorem mem_refresh {e : Entry} :
    e ∈ refresh env dir ↔ ∃ f, dir.lookup f.1 = some f.2 ∧ entryOf f = some e := by
  unfold refresh
  rw [List.mem_filterMap]
  constructor
  · rintro ⟨f, hf, he⟩
    exact ⟨f, (mem_entries).mp ((env.list_perm _).mem_iff.mp hf), he⟩
  · rintro ⟨f, hf, he⟩
    exact ⟨f, (env.list_perm _).mem_iff.mpr ((mem_entries).mpr hf), he⟩

/-- What is known of an entry. -/
theorem of_mem_refresh {e : Entry} (h : e ∈ refresh env dir) :
    ∃ bytes, dir.lookup e.name = some bytes ∧ shaHexName e.name = some e.sha ∧
      e.fileSize = bytes.length ∧ Whole e.toHeader bytes := by
  obtain ⟨f, hf, he⟩ := (mem_refresh).mp h
  obtain ⟨hname, hsha, hsize, hw⟩ := entryOf_eq_some he
  rw [← hname] at hf hsha
  exact ⟨f.2, hf, hsha, hsize, hw⟩

/-- No file is listed twice. -/
theorem nodup_names_refresh (env : Env) (dir : Dir) : ((refresh env dir).map Entry.name).Nodup := by
  have hkeys : (dir.entries.map Sigma.fst).Nodup := dir.keys_nodup
  have hkeys' : ((env.list dir.entries).map Sigma.fst).Nodup :=
    ((env.list_perm _).map Sigma.fst).nodup_iff.mpr hkeys
  refine List.Nodup.sublist ?_ hkeys'
  unfold refresh
  induction env.list dir.entries with
  | nil => exact List.Sublist.refl _
  | cons f fs ih =>
    rw [List.filterMap_cons, List.map_cons]
    split
    · exact ih.cons _
    · rename_i e he
      rw [List.map_cons, (entryOf_eq_some he).1]
      exact ih.cons_cons _

/-- **The entries of a clean directory** account for all its cache files. -/
theorem Clean.sum_refresh (h : Clean dir) (env : Env) :
    ((refresh env dir).map Entry.fileSize).sum = kvBytes dir := by
  have hfiles : ∀ fs : List (Sigma fun _ : Name => List UInt8), (∀ f ∈ fs, CleanFile f.1 f.2) →
      ((fs.filterMap entryOf).map Entry.fileSize).sum = (fs.map fun f => kvSize f.1 f.2).sum := by
    intro fs
    induction fs with
    | nil => exact fun _ => rfl
    | cons f fs ih =>
      intro hall
      have hrest := ih fun g hg => hall g (List.mem_cons_of_mem f hg)
      rw [List.filterMap_cons, List.map_cons, List.sum_cons]
      cases hsha : shaHexName f.1 with
      | none =>
        have he : entryOf f = none := by rw [entryOf, hsha]
        have h0 : kvSize f.1 f.2 = 0 := by
          rw [kvSize, hsha]
          rfl
        rw [he, h0, hrest, Nat.zero_add]
      | some sha =>
        obtain ⟨-, e, hw⟩ := hall f List.mem_cons_self sha hsha
        have he : entryOf f = some { e with sha := sha, name := f.1, fileSize := f.2.length } := by
          rw [entryOf, hsha]
          exact (readEntryFile_eq_some_iff).mpr ⟨hw, rfl, rfl, rfl⟩
        have hsize : kvSize f.1 f.2 = f.2.length := by
          rw [kvSize, hsha]
          rfl
        rw [he, hsize, List.map_cons, List.sum_cons, hrest]
  have hperm := env.list_perm dir.entries
  unfold refresh
  rw [hfiles _ fun f hf => h f.1 f.2 ((mem_entries).mp (hperm.mem_iff.mp hf))]
  exact (hperm.map _).sum_eq

/-! ### Eviction -/

theorem rankedBy_evictsBefore (env : Env) (protectedSha : Option (List UInt8)) :
    RankedBy (evictsBefore env protectedSha) (entryEvictionScore env protectedSha) where
  le_of_better x b h := by
    simp only [evictsBefore, Bool.or_eq_true, Bool.and_eq_true, decide_eq_true_eq, beq_iff_eq] at h
    omega
  le_of_not x b h := by
    simp only [evictsBefore, Bool.or_eq_false_iff, Bool.and_eq_false_iff, decide_eq_false_iff_not,
      beq_eq_false_iff_ne] at h
    omega

/-- Entries removed one after the other. -/
theorem kvBytes_foldl_erase {es : List Entry} (hnodup : (es.map Entry.name).Nodup)
    (hes : ∀ e ∈ es, ∃ bytes, dir.lookup e.name = some bytes ∧ kvSize e.name bytes = e.fileSize) :
    kvBytes (es.foldl (fun d e => d.erase e.name) dir) + (es.map Entry.fileSize).sum = kvBytes dir := by
  induction es generalizing dir with
  | nil => rfl
  | cons e es ih =>
    obtain ⟨hnot, hnodup⟩ := List.nodup_cons.mp hnodup
    obtain ⟨bytes, hb, hsize⟩ := hes e List.mem_cons_self
    have hstep := weigh_erase (w := kvSize) hb
    have hrest := @ih (dir.erase e.name) hnodup fun x hx => by
      obtain ⟨bytes', hb', hsize'⟩ := hes x (List.mem_cons_of_mem e hx)
      refine ⟨bytes', ?_, hsize'⟩
      have hne : x.name ≠ e.name := fun hxe => hnot (hxe ▸ List.mem_map_of_mem hx)
      rw [AList.lookup_erase_ne hne]
      exact hb'
    rw [List.foldl_cons, List.map_cons, List.sum_cons]
    unfold kvBytes at hrest ⊢
    omega

theorem lookup_foldl_erase {es : List Entry} (h : ∀ e ∈ es, e.name ≠ name) :
    (es.foldl (fun d e => d.erase e.name) dir).lookup name = dir.lookup name := by
  induction es generalizing dir with
  | nil => rfl
  | cons e es ih =>
    rw [List.foldl_cons, ih fun x hx => h x (List.mem_cons_of_mem e hx)]
    exact AList.lookup_erase_ne (h e List.mem_cons_self).symm

theorem lookup_foldl_erase_of_eq_some {es : List Entry}
    (h : (es.foldl (fun d e => d.erase e.name) dir).lookup name = some bytes) :
    dir.lookup name = some bytes := by
  induction es generalizing dir with
  | nil => exact h
  | cons e es ih =>
    have hd := ih h
    by_cases hn : name = e.name
    · rw [hn, AList.lookup_erase] at hd
      cases hd
    · rwa [AList.lookup_erase_ne hn] at hd

/-- Eviction only removes. -/
theorem lookup_of_evict {protectedSha : Option (List UInt8)}
    (h : (evict env kc protectedSha dir).lookup name = some bytes) : dir.lookup name = some bytes := by
  unfold evict at h
  split at h
  · exact h
  · exact lookup_foldl_erase_of_eq_some h

/-- **Room is made.** In a clean directory the rest fits. -/
theorem kvBytes_evict (hclean : Clean dir) (hen : kc.enabled = true) (hpos : 0 < kc.budgetBytes)
    (hwrap : kvBytes dir ≤ UINT64_MAX) (protectedSha : Option (List UInt8)) :
    kvBytes (evict env kc protectedSha dir) ≤ kc.budgetBytes := by
  have hcond : (!kc.enabled || kc.budgetBytes == 0) = false := by
    rw [hen]
    simp only [Bool.not_true, Bool.false_or, beq_eq_false_iff_ne]
    omega
  unfold evict
  rw [hcond, if_neg Bool.false_ne_true]
  dsimp only
  have hsum := hclean.sum_refresh env
  have htotal : ((refresh env dir).map Entry.fileSize).sum % (UINT64_MAX + 1) =
      ((refresh env dir).map Entry.fileSize).sum := Nat.mod_eq_of_lt (by omega)
  obtain ⟨kept, hperm, hfits⟩ := removed_spec
    (rankedBy_evictsBefore env (protectedSha.filter (protects kc (refresh env dir))))
    kc.budgetBytes (Nat.le_refl (refresh env dir).length) htotal
  have hnames : (((removed Entry.fileSize _ kc.budgetBytes _ _ (refresh env dir)) ++ kept).map
      Entry.name).Nodup := (hperm.map Entry.name).nodup_iff.mp (nodup_names_refresh env dir)
  rw [List.map_append] at hnames
  have hgone := @kvBytes_foldl_erase dir _ hnames.of_append_left fun e he => by
    obtain ⟨bytes, hb, hsha, hsize, -⟩ :=
      of_mem_refresh (hperm.mem_iff.mpr (List.mem_append_left kept he))
    refine ⟨bytes, hb, ?_⟩
    rw [kvSize, hsha, hsize]
    rfl
  have hall := (hperm.map Entry.fileSize).sum_eq
  rw [List.map_append, List.sum_append] at hall
  omega

/-- **The protected file stays**, when it fits alone and no other file has its digest. -/
theorem lookup_evict_protected (kc : Store) {e : Entry} (he : e ∈ refresh env dir) (hsize : 0 < e.fileSize)
    (hfits : e.fileSize ≤ kc.budgetBytes) (hunique : ∀ x ∈ refresh env dir, x.sha = e.sha → x = e)
    (hwrap : ((refresh env dir).map Entry.fileSize).sum ≤ UINT64_MAX) :
    (evict env kc (some e.sha) dir).lookup e.name = dir.lookup e.name := by
  unfold evict
  split
  · rfl
  · dsimp only
    have htotal : ((refresh env dir).map Entry.fileSize).sum % (UINT64_MAX + 1) =
        ((refresh env dir).map Entry.fileSize).sum := Nat.mod_eq_of_lt (by omega)
    have hnodup : (refresh env dir).Nodup := List.Nodup.of_map _ (nodup_names_refresh env dir)
    -- the protection holds: the first entry with this digest is this one
    have hprot : protects kc (refresh env dir) e.sha = true := by
      unfold protects
      split
      · rename_i x hx
        have hmem := List.mem_of_find?_eq_some hx
        have hsha : x.sha = e.sha := by
          have hb := List.find?_some hx
          exact eq_of_beq hb
        rw [hunique x hmem hsha]
        exact decide_eq_true hfits
      · rfl
    have hfilter : (some e.sha).filter (protects kc (refresh env dir)) = some e.sha := by
      rw [Option.filter_some, if_pos hprot]
    rw [hfilter]
    have htop : ∀ x ∈ refresh env dir, x ≠ e →
        entryEvictionScore env (some e.sha) x < entryEvictionScore env (some e.sha) e := by
      intro x hx hxe
      have hmax : entryEvictionScore env (some e.sha) e = DBL_MAX := by
        rw [entryEvictionScore, if_neg (by omega), if_pos rfl]
      have hne : some e.sha ≠ some x.sha := fun hs => hxe (hunique x hx (Option.some.inj hs).symm)
      rw [hmax, entryEvictionScore, if_neg hne]
      split
      · decide
      · exact env.score_lt x
    have hstay := not_mem_removed (rankedBy_evictsBefore env (some e.sha))
      (refresh env dir).length hnodup htop hfits htotal
    obtain ⟨kept, hperm, -⟩ := removed_spec (rankedBy_evictsBefore env (some e.sha))
      kc.budgetBytes (Nat.le_refl (refresh env dir).length) htotal
    refine lookup_foldl_erase fun x hx hname => hstay ?_
    -- names are unique, so a removed entry with the same name is the same entry
    have hmem : x ∈ refresh env dir := hperm.mem_iff.mpr (List.mem_append_left kept hx)
    have hxe := List.inj_on_of_nodup_map (nodup_names_refresh env dir) hmem he hname
    rw [hxe] at hx
    exact hx

/-- Nothing is removed while the files fit. -/
theorem evict_eq_self (hclean : Clean dir) (hfits : kvBytes dir ≤ kc.budgetBytes)
    (hwrap : kvBytes dir ≤ UINT64_MAX) (protectedSha : Option (List UInt8)) :
    evict env kc protectedSha dir = dir := by
  unfold evict
  split
  · rfl
  · dsimp only
    rw [hclean.sum_refresh env, Nat.mod_eq_of_lt (by omega)]
    have hnone : ∀ fuel, removed Entry.fileSize
        (evictsBefore env (protectedSha.filter (protects kc (refresh env dir)))) kc.budgetBytes fuel
        (kvBytes dir) (refresh env dir) = [] := by
      intro fuel
      cases fuel with
      | zero => rfl
      | succ fuel => exact if_neg fun hmore => absurd hmore.1 (by omega)
    rw [hnone]
    rfl

end DS4.KvStore
