import DS4.Lib.OpenTable
import DS4.Tokenizer.Bpe
import Mathlib.Data.Finset.Dedup

namespace DS4.Tokenizer

/-!
# Tokenizer — the hash table of the vocabulary

`str_i32_table` is an open-addressed table of byte strings.  Its capacity is a power of two, so that
a mask takes a hash to its home slot; there is no deletion and no growth.

* `StrI32Table`, `tableInit`, `tablePut`, `tableGet` — the table as the source has it.
* `Represents` — the table is one of linear probing that holds what was put in last.
* `tablePut_spec`, `tableGet_spec` — one operation.
* `str_i32_table_finite_map` — **the table is a finite map** for as many keys as it was made for.
* `tableFill_lookup` — filled as `vocab_load` fills it, it agrees with the map of `vocabLoad`.
-/

open DS4.Lib

/-! ### The table -/

/-- `hash_bytes` -/
def hashBytes (s : Bytes) : UInt64 :=
  s.foldl (fun h c => (h ^^^ c.toUInt64) * 1099511628211) 1469598103934665603

/-- The loop of `next_pow2`; it does not end once `p` has become zero. -/
def nextPow2Loop (n : UInt64) : Nat → UInt64 → Option UInt64
  | 0, _        => none
  | fuel + 1, p => if p < n then nextPow2Loop n fuel (p <<< 1) else some p

/-- `next_pow2` -/
def nextPow2 (n : UInt64) : Option UInt64 := nextPow2Loop n 65 1

/-- `str_i32_table`; an entry that is not in use is `none`. -/
structure StrI32Table where
  entry : Nat → Option (Bytes × Int)
  cap : UInt64
  used : UInt64

/-- `table_init`; the program ends in `xcalloc` when there is no memory. -/
def tableInit (expected : UInt64) : Option StrI32Table :=
  (nextPow2 (expected * 2 + 16)).map fun cap => { entry := fun _ => none, cap, used := 0 }

namespace StrI32Table

/-- The loop of `table_put` and `table_get`: the entry it ends at.  A loop that has seen every entry
    goes on for ever. -/
def probe (t : StrI32Table) (key : Bytes) : Nat → UInt64 → Option UInt64
  | 0, _        => none
  | fuel + 1, i =>
    match t.entry i.toNat with
    | none   => some i
    | some e => if e.1 = key then some i else probe t key fuel ((i + 1) &&& (t.cap - 1))

/-- Where the loop starts. -/
def home (t : StrI32Table) (key : Bytes) : UInt64 := hashBytes key &&& (t.cap - 1)

/-- `table_put` -/
def tablePut (t : StrI32Table) (key : Bytes) (value : Int) : Option StrI32Table :=
  (t.probe key t.cap.toNat (t.home key)).map fun i =>
    { t with
      entry := Function.update t.entry i.toNat (some (key, value))
      used := if (t.entry i.toNat).isSome then t.used else t.used + 1 }

/-- `table_get`; the inner option says whether the key was found. -/
def tableGet (t : StrI32Table) (key : Bytes) : Option (Option Int) :=
  if t.cap = 0 then some none
  else (t.probe key t.cap.toNat (t.home key)).map fun i => (t.entry i.toNat).map Prod.snd

/-- A sequence of insertions. -/
def putAll (t : StrI32Table) (puts : List (Bytes × Int)) : Option StrI32Table :=
  puts.foldlM (fun t kv => t.tablePut kv.1 kv.2) t

end StrI32Table

/-! ### The capacity -/

theorem nextPow2Loop_spec {n : UInt64} (hn : n.toNat ≤ 2 ^ 63) {j : Nat} (hj : j ≤ 63) {p : UInt64}
    (hp : p.toNat = 2 ^ j) {fuel : Nat} (hfuel : 64 ≤ fuel + j) :
    ∃ k ≤ 63, ∃ cap, nextPow2Loop n fuel p = some cap ∧ cap.toNat = 2 ^ k ∧ n.toNat ≤ 2 ^ k := by
  induction fuel generalizing j p with
  | zero => omega
  | succ fuel ih =>
    unfold nextPow2Loop
    by_cases hlt : p < n
    · -- the power is below `n`, so below the highest bit, and doubling does not overflow
      rw [if_pos hlt]
      have hlt' : 2 ^ j < 2 ^ 63 := by
        rw [← hp]
        exact Nat.lt_of_lt_of_le (UInt64.lt_iff_toNat_lt.mp hlt) hn
      have hj' : j < 63 := (Nat.pow_lt_pow_iff_right (by decide)).mp hlt'
      have hdouble : (p <<< 1).toNat = 2 ^ (j + 1) := by
        have hpow : 2 ^ (j + 1) ≤ 2 ^ 63 := Nat.pow_le_pow_right (by decide) hj'
        rw [UInt64.toNat_shiftLeft, hp, Nat.shiftLeft_eq, ← Nat.pow_add]
        exact Nat.mod_eq_of_lt (Nat.lt_of_le_of_lt hpow (by decide))
      exact ih hj' hdouble (by omega)
    · rw [if_neg hlt]
      refine ⟨j, hj, p, rfl, hp, ?_⟩
      rw [← hp]
      exact Nat.le_of_not_lt fun h => hlt (UInt64.lt_iff_toNat_lt.mpr h)

/-- `next_pow2` ends for any size up to the highest power. -/
theorem nextPow2_spec {n : UInt64} (hn : n.toNat ≤ 2 ^ 63) :
    ∃ k ≤ 63, ∃ cap, nextPow2 n = some cap ∧ cap.toNat = 2 ^ k ∧ n.toNat ≤ 2 ^ k :=
  nextPow2Loop_spec (j := 0) hn (Nat.zero_le _) rfl (by decide)

/-- A mask of a power of two is a remainder. -/
theorem and_mask {cap : UInt64} {k : Nat} (hcap : cap.toNat = 2 ^ k) (i : UInt64) :
    (i &&& (cap - 1)).toNat = i.toNat % cap.toNat := by
  have hone : (1 : UInt64) ≤ cap := by
    rw [UInt64.le_iff_toNat_le, hcap]
    exact Nat.one_le_two_pow
  rw [UInt64.toNat_and, UInt64.toNat_sub_of_le _ _ hone, hcap]
  exact Nat.and_two_pow_sub_one_eq_mod _ _

/-! ### The table as one of linear probing -/

/-- What was put in last under a key. -/
def lastValue (puts : List (Bytes × Int)) (key : Bytes) : Option Int :=
  (puts.reverse.find? fun kv => kv.1 = key).map Prod.snd

@[simp] theorem lastValue_nil : lastValue [] = fun _ => none := rfl

theorem lastValue_concat (puts : List (Bytes × Int)) (key : Bytes) (value : Int) :
    lastValue (puts ++ [(key, value)]) = Function.update (lastValue puts) key (some value) := by
  funext k
  by_cases hk : k = key
  · subst hk
    simp [lastValue]
  · have : (decide (key = k)) = false := decide_eq_false fun h => hk h.symm
    simp [lastValue, this, hk]

/-- A key has a last value when it was put in. -/
theorem lastValue_eq_none {puts : List (Bytes × Int)} {key : Bytes} :
    lastValue puts key = none ↔ key ∉ puts.map Prod.fst := by
  simp only [lastValue, Option.map_eq_none_iff, List.find?_eq_none, List.mem_reverse, List.mem_map]
  constructor
  · rintro h ⟨kv, hmem, rfl⟩
    exact h kv hmem (by simp)
  · intro h kv hmem heq
    exact h ⟨kv, hmem, by simpa using heq⟩

namespace StrI32Table

/-- The entries as a table of linear probing. -/
def entries (t : StrI32Table) : OpenTable Bytes Int := ⟨t.cap.toNat, t.entry⟩

/-- The table holds what was put in last under every key. -/
structure Represents (t : StrI32Table) (puts : List (Bytes × Int)) : Prop where
  pow : ∃ k ≤ 63, t.cap.toNat = 2 ^ k
  holds : t.entries.Holds (fun key => (t.home key).toNat) (lastValue puts)

variable {t : StrI32Table} {puts : List (Bytes × Int)} {key : Bytes}

theorem home_lt {k : Nat} (hcap : t.cap.toNat = 2 ^ k) (key : Bytes) :
    (t.home key).toNat < t.entries.cap := by
  unfold home
  rw [and_mask hcap]
  exact Nat.mod_lt _ (hcap ▸ Nat.two_pow_pos k)

/-- The loop is the walk of linear probing. -/
theorem probe_eq {k : Nat} (hk : k ≤ 63) (hcap : t.cap.toNat = 2 ^ k) (key : Bytes) (fuel : Nat)
    (i : UInt64) : (t.probe key fuel i).map UInt64.toNat = t.entries.probe key fuel i.toNat := by
  induction fuel generalizing i with
  | zero => rfl
  | succ fuel ih =>
    have hnext : ((i + 1) &&& (t.cap - 1)).toNat = (i.toNat + 1) % t.cap.toNat := by
      rw [and_mask hcap, UInt64.toNat_add, hcap]
      exact Nat.mod_mod_of_dvd _ (Nat.pow_dvd_pow 2 (by omega))
    unfold probe OpenTable.probe
    rw [show t.entries.slot i.toNat = t.entry i.toNat from rfl]
    cases t.entry i.toNat with
    | none => rfl
    | some e =>
      dsimp only
      by_cases he : e.1 = key
      · rw [if_pos he, if_pos he]
        rfl
      · rw [if_neg he, if_neg he, ih, hnext]
        rfl

/-- What the loop finds for a key, and what is on its way. -/
theorem Represents.probe (h : t.Represents puts)
    (hroom : (puts.map Prod.fst).dedup.length < t.cap.toNat) (key : Bytes) :
    ∃ i d, t.probe key t.cap.toNat (t.home key) = some i ∧ d < t.entries.cap ∧
      i.toNat = ((t.home key).toNat + d) % t.entries.cap ∧
      t.entry i.toNat = (lastValue puts key).map (fun v => (key, v)) ∧
      ∀ d' < d, ∃ e, t.entries.slot (((t.home key).toNat + d') % t.entries.cap) = some e ∧
        e.1 ≠ key := by
  obtain ⟨k, hk, hcap⟩ := h.pow
  have hfree : ∃ f < t.entries.cap, t.entries.slot f = none := by
    have hcard : (puts.map Prod.fst).toFinset.card < t.entries.cap := by
      rwa [List.card_toFinset]
    apply h.holds.exists_free hcard
    intro k' v hv
    rw [List.mem_toFinset]
    by_contra hno
    rw [lastValue_eq_none.mpr hno] at hv
    cases hv
  obtain ⟨d, hd, hprobe, hslot, hbusy⟩ :=
    h.holds.probe_eq (home_lt hcap key) hfree (Nat.le_refl _)
  have hrun := probe_eq hk hcap key t.cap.toNat (t.home key)
  rw [show t.cap.toNat = t.entries.cap from rfl, hprobe, Option.map_eq_some_iff] at hrun
  obtain ⟨i, hi, hat⟩ := hrun
  refine ⟨i, d, hi, hd, hat, ?_, hbusy⟩
  rw [hat]
  exact hslot

/-- **`table_put`.** The loop ends, and the table then holds the new value too. -/
theorem tablePut_spec (h : t.Represents puts)
    (hroom : (puts.map Prod.fst).dedup.length < t.cap.toNat) (key : Bytes) (value : Int) :
    ∃ t', t.tablePut key value = some t' ∧ t'.cap = t.cap ∧
      t'.Represents (puts ++ [(key, value)]) := by
  obtain ⟨i, d, hprobe, hd, hat, hslot, hbusy⟩ := h.probe hroom key
  unfold tablePut
  rw [hprobe]
  refine ⟨_, rfl, rfl, h.pow, ?_⟩
  rw [lastValue_concat]
  have := h.holds.put (by rw [← hat]; exact hslot) hd hbusy value
  rw [← hat] at this
  exact this

/-- **`table_get`.** The loop ends, and finds what was put in last. -/
theorem tableGet_spec (h : t.Represents puts)
    (hroom : (puts.map Prod.fst).dedup.length < t.cap.toNat) (key : Bytes) :
    t.tableGet key = some (lastValue puts key) := by
  obtain ⟨i, d, hprobe, -, -, hslot, -⟩ := h.probe hroom key
  have hcap : t.cap ≠ 0 := by
    rintro hzero
    rw [hzero] at hroom
    exact absurd hroom (Nat.not_lt_zero _)
  unfold tableGet
  rw [if_neg hcap, hprobe]
  show some ((t.entry i.toNat).map Prod.snd) = _
  rw [hslot, Option.map_map]
  exact congrArg some Option.map_id'

/-- A sequence of insertions with room for its keys. -/
theorem putAll_spec (h : t.Represents puts) (more : List (Bytes × Int))
    (hroom : ((puts ++ more).map Prod.fst).dedup.length < t.cap.toNat) :
    ∃ t', t.putAll more = some t' ∧ t'.cap = t.cap ∧ t'.Represents (puts ++ more) := by
  induction more generalizing t puts with
  | nil => exact ⟨t, rfl, rfl, by simpa using h⟩
  | cons kv more ih =>
    have hfewer : (puts.map Prod.fst).dedup.length
        ≤ ((puts ++ kv :: more).map Prod.fst).dedup.length := by
      rw [← List.card_toFinset, ← List.card_toFinset]
      refine Finset.card_le_card fun k hk => ?_
      simp only [List.mem_toFinset, List.map_append, List.mem_append] at hk ⊢
      exact Or.inl hk
    obtain ⟨t₁, hput, hcap₁, h₁⟩ :=
      tablePut_spec h (Nat.lt_of_le_of_lt hfewer hroom) kv.1 kv.2
    have hassoc : puts ++ kv :: more = (puts ++ [kv]) ++ more := by simp
    obtain ⟨t', hmore, hcap', h'⟩ := ih h₁ (by rw [hcap₁]; rwa [hassoc] at hroom)
    refine ⟨t', ?_, hcap'.trans hcap₁, by rwa [hassoc]⟩
    unfold putAll
    rw [List.foldlM_cons, hput]
    exact hmore

end StrI32Table

/-! ### The finite map -/

/-- A fresh table has more than twice the entries it is made for. -/
theorem tableInit_spec {expected : UInt64} (hexp : expected.toNat * 2 + 16 ≤ 2 ^ 63) :
    ∃ t, tableInit expected = some t ∧ expected.toNat < t.cap.toNat ∧ t.Represents [] := by
  have hsize : (expected * 2 + 16).toNat = expected.toNat * 2 + 16 := by
    rw [UInt64.toNat_add, UInt64.toNat_mul]
    show (expected.toNat * 2 % 2 ^ 64 + 16) % 2 ^ 64 = _
    omega
  obtain ⟨k, hk, cap, hcap, hpow, hle⟩ := nextPow2_spec (by rw [hsize]; exact hexp)
  refine ⟨_, by rw [tableInit, hcap]; rfl, ?_, ⟨k, hk, hpow⟩, ?_⟩
  · show expected.toNat < cap.toNat
    omega
  · exact OpenTable.holds_empty _ (hpow ▸ Nat.two_pow_pos k)

/-- A fresh table takes as many distinct keys as it is made for. -/
theorem tableInit_putAll {expected : UInt64} (hexp : expected.toNat * 2 + 16 ≤ 2 ^ 63)
    {puts : List (Bytes × Int)} (hcount : (puts.map Prod.fst).dedup.length ≤ expected.toNat) :
    ∃ t₀ t, tableInit expected = some t₀ ∧ t₀.putAll puts = some t ∧
      ∀ key, t.tableGet key = some (lastValue puts key) := by
  obtain ⟨t₀, hinit, hlt, h₀⟩ := tableInit_spec hexp
  have hroom := Nat.lt_of_le_of_lt hcount hlt
  obtain ⟨t, hput, hcap, h⟩ := StrI32Table.putAll_spec h₀ puts hroom
  refine ⟨t₀, t, hinit, hput, fun key => StrI32Table.tableGet_spec h ?_ key⟩
  rwa [hcap]

/-- **The table is a finite map.** After any insertions, of no more distinct keys than the table was
    made for, every lookup returns the value put in last under its key, and finds nothing exactly
    for the keys never put in; all the loops end.  (An array of strings in a file is far shorter
    than the bound on `expected`.) -/
theorem str_i32_table_finite_map (expected : UInt64) (hexp : expected.toNat * 2 + 16 ≤ 2 ^ 63)
    (puts : List (Bytes × Int)) (hcount : (puts.map Prod.fst).dedup.length ≤ expected.toNat) :
    ∃ t₀ t, tableInit expected = some t₀ ∧ t₀.putAll puts = some t ∧
      (∀ key, t.tableGet key = some (lastValue puts key)) ∧
      ∀ key, t.tableGet key = some none ↔ key ∉ puts.map Prod.fst := by
  obtain ⟨t₀, t, hinit, hput, hget⟩ := tableInit_putAll hexp hcount
  refine ⟨t₀, t, hinit, hput, hget, fun key => ?_⟩
  rw [hget, Option.some_inj, lastValue_eq_none]

/-- Three insertions under two keys. -/
theorem str_i32_table_finite_map_two :
    ∃ t₀ t, tableInit 2 = some t₀ ∧ t₀.putAll [([97], 1), ([98], 2), ([97], 3)] = some t ∧
      (∀ key, t.tableGet key = some (lastValue [([97], 1), ([98], 2), ([97], 3)] key)) ∧
      ∀ key, t.tableGet key = some none ↔ key ∉ [[97], [98], [97]] :=
  str_i32_table_finite_map 2 (by decide) [([97], 1), ([98], 2), ([97], 3)] (by decide)

/-! ### The tables of a vocabulary -/

/-- The insertions of `vocab_load`: every string with its index. -/
def numbered (i : Nat) (ss : List Bytes) : List (Bytes × Int) :=
  ss.mapIdx fun j s => (s, Int.bmod ((i + j : Nat) : Int) 0x100000000)

theorem numbered_cons (i : Nat) (s : Bytes) (ss : List Bytes) :
    numbered i (s :: ss) = (s, Int.bmod i 0x100000000) :: numbered (i + 1) ss := by
  simp [numbered, List.mapIdx_cons, Nat.add_comm, Nat.add_left_comm]

theorem lastValue_cons (kv : Bytes × Int) (puts : List (Bytes × Int)) (key : Bytes) :
    lastValue (kv :: puts) key =
      (lastValue puts key).or (if kv.1 = key then some kv.2 else none) := by
  unfold lastValue
  rw [List.reverse_cons, List.find?_append]
  cases (puts.reverse.find? fun kv => kv.1 = key) with
  | some e => rfl
  | none =>
    by_cases hkey : kv.1 = key
    · simp [hkey]
    · simp [hkey]

/-- The map of `vocabLoad` has the values put in last. -/
theorem lookup_tablePutAll_eq (ss : List Bytes) (i : Nat) (t : Table) (key : Bytes) :
    (tablePutAll i ss t).lookup key = (lastValue (numbered i ss) key).or (t.lookup key) := by
  induction ss generalizing i t with
  | nil => rfl
  | cons s ss ih =>
    rw [tablePutAll, ih, numbered_cons, lastValue_cons, Option.or_assoc]
    congr 1
    by_cases hkey : s = key
    · subst hkey
      simp [AList.lookup_insert]
    · rw [AList.lookup_insert_ne fun h => hkey h.symm, if_neg hkey]
      rfl

/-- **A table of `vocab_load`.** Made for the strings of an array and filled with them, the hash
    table answers every lookup as the map of `vocabLoad` does. -/
theorem tableFill_lookup (ss : List Bytes) (hlen : ss.length * 2 + 16 ≤ 2 ^ 63) :
    ∃ t₀ t, tableInit (UInt64.ofNat ss.length) = some t₀ ∧ t₀.putAll (numbered 0 ss) = some t ∧
      ∀ key, t.tableGet key = some ((tablePutAll 0 ss ∅).lookup key) := by
  have hnat : (UInt64.ofNat ss.length).toNat = ss.length := by
    rw [UInt64.toNat_ofNat']
    exact Nat.mod_eq_of_lt (by omega)
  have hcount : ((numbered 0 ss).map Prod.fst).dedup.length ≤ (UInt64.ofNat ss.length).toNat := by
    rw [hnat]
    refine (List.dedup_sublist _).length_le.trans (Nat.le_of_eq ?_)
    simp [numbered]
  obtain ⟨t₀, t, hinit, hput, hget⟩ := tableInit_putAll (by rwa [hnat]) hcount
  refine ⟨t₀, t, hinit, hput, fun key => ?_⟩
  rw [hget, lookup_tablePutAll_eq]
  simp

end DS4.Tokenizer
