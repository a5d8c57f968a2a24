import Mathlib.Data.Nat.ModEq
import Mathlib.Data.List.Basic

namespace DS4.Lib

/-!
# The window of a log in a ring

A log of rows is kept in a ring of `cap` slots: row `p` goes to slot `p % cap`, and only the last
`window` rows have to be there.

* `Window` — the ring holds the window of the log.
* `Window.push` — storing the next row moves the window on.
* `fill` — rows stored one after the other from a position on; `fill_get`.
* `Window.of_agree` — rows written ahead of the log do not reach the window, provided the ring has
  room for them.
-/

variable {α : Type*}

/-- The last `window` rows of the log `row 0, …, row (n - 1)` are in their slots. -/
def Window (cap window n : Nat) (row : Nat → α) (ring : Nat → α) : Prop :=
  ∀ p, p < n → n ≤ p + window → ring (p % cap) = row p

/-- There is room for `k` rows after the window of a log of length `n`: the ring is longer than
    the window by that much, or it never wraps. -/
def RingRoom (cap window n k : Nat) : Prop := window + k ≤ cap ∨ n + k ≤ cap

instance (cap window n k : Nat) : Decidable (RingRoom cap window n k) :=
  inferInstanceAs (Decidable (_ ∨ _))

/-- Two positions less than `cap` apart have different slots. -/
theorem slot_ne {cap p q : Nat} (hpq : p < q) (hlt : q < p + cap) : p % cap ≠ q % cap := by
  intro h
  have hdvd : cap ∣ q - p := (Nat.modEq_iff_dvd' (by omega)).mp h
  have hle : cap ≤ q - p := Nat.le_of_dvd (by omega) hdvd
  omega

theorem window_zero (cap window : Nat) (row ring : Nat → α) : Window cap window 0 row ring :=
  fun _ hp => absurd hp (by omega)

/-- **Storing the next row.** -/
theorem Window.push {cap window n : Nat} {row ring ring' : Nat → α}
    (h : Window cap window n row ring) (hwin : window ≤ cap)
    (hnew : ring' (n % cap) = row n) (hold : ∀ i, i ≠ n % cap → ring' i = ring i) :
    Window cap window (n + 1) row ring' := by
  intro p hp hpw
  by_cases hpn : p = n
  · rw [hpn]
    exact hnew
  · rw [hold _ (slot_ne (by omega) (by omega))]
    exact h p (by omega) (by omega)

/-- **Rows ahead of the log.** A ring that differs only in the slots of the next `k` positions
    still holds the window. -/
theorem Window.of_agree {cap window n k : Nat} {row ring ring' : Nat → α}
    (h : Window cap window n row ring) (hroom : RingRoom cap window n k)
    (hagree : ∀ i, (∀ q, n ≤ q → q < n + k → i ≠ q % cap) → ring' i = ring i) :
    Window cap window n row ring' := by
  intro p hp hpw
  rw [hagree]
  · exact h p hp hpw
  · intro q hq hqk
    obtain hroom | hroom := hroom
    · exact slot_ne (by omega) (by omega)
    -- the ring does not wrap: both positions are their own slots
    · rw [Nat.mod_eq_of_lt (by omega : p < cap), Nat.mod_eq_of_lt (by omega : q < cap)]
      omega

/-- Less room is needed for fewer rows, further on. -/
theorem RingRoom.mono {cap window n k n' k' : Nat} (h : RingRoom cap window n k)
    (hk : k' ≤ k) (hn : n' + k' ≤ n + k) : RingRoom cap window n' k' := by
  obtain h | h := h
  · exact Or.inl (by omega)
  · exact Or.inr (by omega)

/-- A window depends on the rows of the log alone. -/
theorem Window.congr {cap window n : Nat} {row ring : Nat → α}
    (h : Window cap window n row ring) (row' : Nat → α) (hrow : ∀ p, p < n → row p = row' p) :
    Window cap window n row' ring := by
  intro p hp hpw
  rw [← hrow p hp]
  exact h p hp hpw

/-- Store `rows 0, …, rows (k - 1)` at the positions `first, first + 1, …`. -/
def fill (cap first : Nat) (rows : Nat → α) : Nat → (Nat → α) → Nat → α
  | 0, ring     => ring
  | k + 1, ring => fun i =>
    if i = (first + k) % cap then rows k else fill cap first rows k ring i

/-- As long as they fit the ring, all stored rows can be read back. -/
theorem fill_get (cap first : Nat) (rows ring : Nat → α) {k : Nat} (hk : k ≤ cap) {r : Nat}
    (hr : r < k) : fill cap first rows k ring ((first + r) % cap) = rows r := by
  induction k with
  | zero => exact absurd hr (by omega)
  | succ k ih =>
    show (if (first + r) % cap = (first + k) % cap then rows k else _) = rows r
    by_cases hrk : r = k
    · rw [hrk, if_pos rfl]
    · rw [if_neg (slot_ne (by omega) (by omega))]
      exact ih (by omega) (by omega)

end DS4.Lib
