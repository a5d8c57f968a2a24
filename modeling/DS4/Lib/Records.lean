import Mathlib.Order.CompletePartialOrder
import Mathlib.Order.Interval.Set.Disjoint
import Mathlib.Order.Lattice.Nat

namespace DS4.Lib

/-!
# Records of one stride

Records stand `stride` apart, and each has the same fields at the same offsets.

* `Records.record`, `Records.field` — the places of a record and of one of its fields.
* `field_subset_record` — a field that ends within the stride is in its own record.
* `fields_le_iff` — all fields of `n` records end before `size`: the last record decides.
* `fields_disjoint_iff` — no two fields of any records meet: the fields of one record decide.
-/

/-- The fields of records that stand `stride` apart. -/
structure Records (F : Type) where
  stride : Nat
  off : F → Nat
  len : F → Nat

namespace Records

variable {F : Type} (r : Records F) {n size reach : Nat} {e e' : Nat} {f g : F}

/-- Where a field of a record starts. -/
def start (e : Nat) (f : F) : Nat := e * r.stride + r.off f

/-- The places of a field. -/
def field (e : Nat) (f : F) : Set Nat := Set.Ico (r.start e f) (r.start e f + r.len f)

/-- The places of a record. -/
def record (e : Nat) : Set Nat := Set.Ico (e * r.stride) ((e + 1) * r.stride)

/-- The fields of a record do not meet. -/
def Apart : Prop := ∀ f g, f ≠ g → r.off f + r.len f ≤ r.off g ∨ r.off g + r.len g ≤ r.off f

variable {r}

theorem field_subset_record (h : r.off f + r.len f ≤ r.stride) (e : Nat) : r.field e f ⊆ r.record e := by
  apply Set.Ico_subset_Ico
  · exact Nat.le_add_right _ _
  · unfold start
    rw [Nat.add_mul, Nat.one_mul]
    omega

theorem disjoint_record (h : e < e') : Disjoint (r.record e) (r.record e') := by
  rw [Set.disjoint_left]
  intro x hx hx'
  have hnext : (e + 1) * r.stride ≤ e' * r.stride := Nat.mul_le_mul_right _ h
  exact absurd (Nat.lt_of_lt_of_le hx.2 hnext) (Nat.not_lt.mpr hx'.1)

/-- Two fields of one record. -/
theorem disjoint_field_iff (hf : 0 < r.len f) (hg : 0 < r.len g) (e : Nat) :
    Disjoint (r.field e f) (r.field e g) ↔ r.off f + r.len f ≤ r.off g ∨ r.off g + r.len g ≤ r.off f := by
  unfold field start
  rw [Set.Ico_disjoint_Ico]
  constructor
  · intro h
    rcases Nat.le_total (r.off f) (r.off g) with hle | hle
    · rw [Nat.max_eq_right (by omega)] at h
      omega
    · rw [Nat.max_eq_left (by omega)] at h
      omega
  · rintro (h | h)
    · exact Nat.le_trans (Nat.min_le_left _ _) (Nat.le_trans (by omega) (Nat.le_max_right _ _))
    · exact Nat.le_trans (Nat.min_le_right _ _) (Nat.le_trans (by omega) (Nat.le_max_left _ _))

/-- **The end.**  Where `reach` is the end of the last field of a record, the last of `n` records decides. -/
theorem fields_le_iff (hn : 0 < n) (hreach : ∀ f, r.off f + r.len f ≤ reach)
    (hlast : ∃ f, r.off f + r.len f = reach) :
    (∀ e < n, ∀ f, r.start e f + r.len f ≤ size) ↔ (n - 1) * r.stride + reach ≤ size := by
  constructor
  · intro h
    obtain ⟨f, hf⟩ := hlast
    have hend := h (n - 1) (by omega) f
    unfold start at hend
    omega
  · intro h e he f
    have hstride : e * r.stride ≤ (n - 1) * r.stride := Nat.mul_le_mul_right _ (by omega)
    have hend := hreach f
    unfold start
    omega

/-- **No two fields meet** just if the fields of one record do not. -/
theorem fields_disjoint_iff (hn : 0 < n) (hlen : ∀ f, 0 < r.len f) (hfit : ∀ f, r.off f + r.len f ≤ r.stride) :
    (∀ e < n, ∀ e' < n, ∀ f g, (e, f) ≠ (e', g) → Disjoint (r.field e f) (r.field e' g)) ↔ r.Apart := by
  constructor
  · intro h f g hne
    refine (disjoint_field_iff (hlen f) (hlen g) 0).mp (h 0 hn 0 hn f g ?_)
    exact fun heq => hne (Prod.mk.inj heq).2
  · intro h e _ e' _ f g hne
    -- in different records the strides keep them apart
    rcases Nat.lt_trichotomy e e' with hlt | rfl | hlt
    · exact (disjoint_record hlt).mono (field_subset_record (hfit f) e) (field_subset_record (hfit g) e')
    · refine (disjoint_field_iff (hlen f) (hlen g) e).mpr (h f g ?_)
      rintro rfl
      exact hne rfl
    · exact (disjoint_record hlt).symm.mono (field_subset_record (hfit f) e) (field_subset_record (hfit g) e')

end Records

end DS4.Lib
