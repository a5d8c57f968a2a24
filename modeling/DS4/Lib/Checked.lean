import Mathlib.Order.Nat
import Mathlib.Tactic.SplitIfs

namespace DS4.Lib

/-!
# Sizes in 64 bits that are checked for overflow

A size is summed up in unsigned 64-bit words, with a test before every operation.  Nothing comes out just where the
true size does not fit.

* `checkedMul`, `checkedAdd`, `checkedAlign` — the operations with their tests.
* `Exact` — a computation gives the true size, or that does not fit.
* `Exact.bind`, `Exact.foldlM` — one operation behind another; each makes the size no smaller.
-/

/-- `UINT64_MAX` -/
def maxU64 : UInt64 := 0xffffffffffffffff

/-- `if (b > UINT64_MAX / a) return false;` before `a * b`. -/
def checkedMul (a b : UInt64) : Option UInt64 := if maxU64 / a < b then none else some (a * b)

/-- `if (a > UINT64_MAX - b) return false;` before `a + b`. -/
def checkedAdd (a b : UInt64) : Option UInt64 := if maxU64 - b < a then none else some (a + b)

/-- The next multiple of `alignment`. -/
def alignUp (value alignment : UInt64) : UInt64 :=
  let rem := value % alignment
  if rem = 0 then value else value + alignment - rem

/-- `if (a > UINT64_MAX - (alignment - 1)) return false;` before `alignUp a alignment`. -/
def checkedAlign (a alignment : UInt64) : Option UInt64 :=
  if maxU64 - (alignment - 1) < a then none else some (alignUp a alignment)

/-- The next multiple of `a`, as a number. -/
def roundUp (n a : Nat) : Nat := if n % a = 0 then n else n + a - n % a

/-- What is computed is the size `n`, and nothing comes out just where `n` does not fit in 64 bits. -/
structure Exact (o : Option UInt64) (n : Nat) : Prop where
  some : ∀ v, o = some v → v.toNat = n
  none : o = none → UInt64.size ≤ n

variable {a b : UInt64} {n m : Nat} {o : Option UInt64}

/-! ### The operations -/

theorem Exact.pure (h : a.toNat = n) : Exact (Option.some a) n where
  some := fun _ hv => (Option.some.inj hv) ▸ h
  none := nofun

theorem Exact.refuse (h : UInt64.size ≤ n) : Exact Option.none n where
  some := nofun
  none := fun _ => h

theorem checkedMul_exact (ha : a ≠ 0) : Exact (checkedMul a b) (a.toNat * b.toNat) := by
  have hpos : 0 < a.toNat := Nat.pos_of_ne_zero fun h => ha (UInt64.toNat_inj.1 h)
  have hdiv : (maxU64 / a).toNat = 0xffffffffffffffff / a.toNat := UInt64.toNat_div _ _
  unfold checkedMul
  split_ifs with h
  · rw [UInt64.lt_iff_toNat_lt, hdiv, Nat.div_lt_iff_lt_mul hpos, Nat.mul_comm] at h
    exact .refuse h
  · rw [UInt64.lt_iff_toNat_lt, hdiv, not_lt, Nat.le_div_iff_mul_le hpos, Nat.mul_comm] at h
    refine .pure ?_
    rw [UInt64.toNat_mul]
    exact Nat.mod_eq_of_lt (Nat.lt_succ_of_le h)

theorem checkedAdd_exact : Exact (checkedAdd a b) (a.toNat + b.toNat) := by
  have hsub : (maxU64 - b).toNat = 0xffffffffffffffff - b.toNat :=
    UInt64.toNat_sub_of_le _ _ (UInt64.le_iff_toNat_le.2 (Nat.le_of_lt_succ b.toNat_lt))
  unfold checkedAdd
  split_ifs with h
  · rw [UInt64.lt_iff_toNat_lt, hsub] at h
    exact .refuse (by have : UInt64.size = 0x10000000000000000 := rfl; omega)
  · rw [UInt64.lt_iff_toNat_lt, hsub] at h
    refine .pure ?_
    rw [UInt64.toNat_add]
    have := b.toNat_lt
    exact Nat.mod_eq_of_lt (by omega)

theorem le_roundUp (n a : Nat) (ha : 0 < a) : n ≤ roundUp n a := by
  have := Nat.mod_lt n ha
  unfold roundUp
  split_ifs <;> omega

/-- It is the least multiple that is not smaller. -/
theorem roundUp_le {n a k : Nat} (h : n ≤ a * k) : roundUp n a ≤ a * k := by
  unfold roundUp
  split_ifs with h0
  · exact h
  · rcases Nat.eq_zero_or_pos a with rfl | ha
    · omega
    · have hq : n / a < k := by
        refine Nat.lt_of_le_of_ne (Nat.div_le_of_le_mul h) fun heq => h0 ?_
        have := Nat.div_add_mod n a
        rw [heq] at this
        omega
      have hmul : a * (n / a) + a ≤ a * k := by
        rw [← Nat.mul_succ]
        exact Nat.mul_le_mul_left a hq
      have := Nat.div_add_mod n a
      omega

theorem roundUp_dvd (n a : Nat) : a ∣ roundUp n a := by
  unfold roundUp
  split_ifs with h
  · exact Nat.dvd_of_mod_eq_zero h
  · refine (Nat.dvd_iff_mod_eq_zero ..).2 ?_
    have := Nat.div_add_mod n a
    have heq : n + a - n % a = a * (n / a) + a := by omega
    rw [heq, Nat.add_mod_right, Nat.mul_mod_right]

theorem roundUp_mono {a : Nat} (h : n ≤ m) (ha : 0 < a) : roundUp n a ≤ roundUp m a := by
  obtain ⟨k, hk⟩ := roundUp_dvd m a
  rw [hk]
  exact roundUp_le (hk ▸ Nat.le_trans h (le_roundUp m a ha))

theorem alignUp_toNat (hfit : roundUp a.toNat b.toNat < UInt64.size) :
    (alignUp a b).toNat = roundUp a.toNat b.toNat := by
  have hrem : (a % b).toNat = a.toNat % b.toNat := UInt64.toNat_mod _ _
  have hle : a.toNat % b.toNat ≤ a.toNat := Nat.mod_le _ _
  have hiff : a % b = 0 ↔ a.toNat % b.toNat = 0 := by rw [← hrem, ← UInt64.toNat_inj]; rfl
  unfold alignUp roundUp at *
  simp only [hiff]
  split_ifs at hfit ⊢ with h
  · rfl
  · -- the sum may wrap, and the difference then wraps back
    rw [UInt64.toNat_sub, UInt64.toNat_add, hrem]
    have hsize : UInt64.size = 0x10000000000000000 := rfl
    have ha := a.toNat_lt
    omega

/-- An alignment that divides the size of a word: the test refuses only what wraps. -/
theorem checkedAlign_exact (hb : b ≠ 0) (hdvd : b.toNat ∣ UInt64.size) :
    Exact (checkedAlign a b) (roundUp a.toNat b.toNat) := by
  have hpos : 0 < b.toNat := Nat.pos_of_ne_zero fun h => hb ((UInt64.toNat_inj).1 h)
  have hone : (b - 1).toNat = b.toNat - 1 :=
    UInt64.toNat_sub_of_le _ _ ((UInt64.le_iff_toNat_le).2 hpos)
  have hmax : (maxU64 - (b - 1)).toNat = 0xffffffffffffffff - (b - 1).toNat :=
    UInt64.toNat_sub_of_le _ _ ((UInt64.le_iff_toNat_le).2 (Nat.le_of_lt_succ (b - 1).toNat_lt))
  have hsize : UInt64.size = 0x10000000000000000 := rfl
  have hb64 := b.toNat_lt
  obtain ⟨k, hk⟩ := hdvd
  -- the last multiple that fits
  have hlast : UInt64.size - b.toNat = b.toNat * (k - 1) := by rw [hk, Nat.mul_sub_one]
  unfold checkedAlign
  split_ifs with h
  · rw [UInt64.lt_iff_toNat_lt, hmax, hone] at h
    refine .refuse ?_
    obtain ⟨q, hq⟩ := roundUp_dvd a.toNat b.toNat
    have hle := le_roundUp a.toNat b.toNat hpos
    have hlt : b.toNat * (k - 1) < b.toNat * q := by omega
    have hkq : k ≤ q := by have := (Nat.mul_lt_mul_left hpos).1 hlt; omega
    rw [hk, hq]
    exact Nat.mul_le_mul_left _ hkq
  · rw [UInt64.lt_iff_toNat_lt, hmax, hone] at h
    have hle : roundUp a.toNat b.toNat ≤ b.toNat * (k - 1) := roundUp_le (by omega)
    exact .pure (alignUp_toNat (by omega))

/-! ### Sequences -/

/-- An operation behind another. -/
theorem Exact.bind {f : UInt64 → Option UInt64} (h : Exact o n) (hle : n ≤ m)
    (hf : ∀ v, v.toNat = n → Exact (f v) m) : Exact (o >>= f) m := by
  cases o with
  | none => exact .refuse (Nat.le_trans (h.none rfl) hle)
  | some v => exact hf v (h.some v rfl)

/-- A loop whose steps never make the size smaller. -/
theorem Exact.foldlM {α : Type*} {f : UInt64 → α → Option UInt64} {g : Nat → α → Nat}
    (hf : ∀ v x, Exact (f v x) (g v.toNat x)) (hg : ∀ k x, k ≤ g k x) (l : List α) (v : UInt64) :
    Exact (l.foldlM f v) (l.foldl g v.toNat) := by
  have hmono : ∀ (l : List α) (k : Nat), k ≤ l.foldl g k := by
    intro l
    induction l with
    | nil => exact fun k => Nat.le_refl k
    | cons x l ih => exact fun k => Nat.le_trans (hg k x) (ih (g k x))
  induction l generalizing v with
  | nil => exact .pure rfl
  | cons x l ih =>
    rw [List.foldlM_cons, List.foldl_cons]
    refine (hf v x).bind (hmono l _) fun w hw => ?_
    rw [← hw]
    exact ih w

/-- It comes out just where the size fits. -/
theorem Exact.iff (h : Exact o n) (v : UInt64) : o = Option.some v ↔ n < UInt64.size ∧ v.toNat = n := by
  constructor
  · intro hv
    have := h.some v hv
    exact ⟨this ▸ v.toNat_lt, this⟩
  · rintro ⟨hfit, hv⟩
    cases ho : o with
    | none => exact absurd (h.none ho) (Nat.not_le.2 hfit)
    | some w => rw [(UInt64.toNat_inj).1 ((h.some w ho).trans hv.symm)]

end DS4.Lib
