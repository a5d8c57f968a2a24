import Mathlib.Order.Nat
import Mathlib.Tactic.SplitIfs

namespace DS4.Lib

/-!
# The largest number that fits, by bisection

* `bisect` — halve a closed range; go up where the middle fits, down where it does not.
* `bisect_spec` — where what is below a number that fits fits too, the last one that fits.
-/

/-- The loop `while (lo <= hi)`; `fuel` bounds its turns. -/
def bisect (fits : Nat → Bool) : Nat → Nat → Nat → Nat → Nat
  | 0, _, _, best => best
  | fuel + 1, lo, hi, best =>
    if hi < lo then best
    else
      let mid := lo + (hi - lo) / 2
      if fits mid then bisect fits fuel (mid + 1) hi mid
      else if mid = 0 then best
      else bisect fits fuel lo (mid - 1) best

variable {fits : Nat → Bool} {m n : Nat}

/-- What holds at every turn: `best` fits, the search goes on right behind it, and nothing above `hi` fits. -/
structure Bisecting (fits : Nat → Bool) (m n lo hi best : Nat) : Prop where
  best_fits : fits best
  low : m ≤ best
  high : best ≤ n
  start : best ≤ lo ∧ lo ≤ best + 1
  stop : hi ≤ n
  above : ∀ k, hi < k → k ≤ n → ¬ fits k

theorem Bisecting.up {lo hi best : Nat} (h : Bisecting fits m n lo hi best) (hle : lo ≤ hi)
    (hmid : fits (lo + (hi - lo) / 2)) :
    Bisecting fits m n (lo + (hi - lo) / 2 + 1) hi (lo + (hi - lo) / 2) := by
  have hstop := h.stop
  have hlow := h.low
  have hstart := h.start
  exact ⟨hmid, by omega, by omega, by omega, h.stop, h.above⟩

theorem Bisecting.down {lo hi best : Nat} (h : Bisecting fits m n lo hi best) (hle : lo ≤ hi)
    (hclosed : ∀ a b, m ≤ a → a ≤ b → b ≤ n → fits b → fits a)
    (hmid : ¬ fits (lo + (hi - lo) / 2)) : Bisecting fits m n lo (lo + (hi - lo) / 2 - 1) best := by
  have hlow := h.low
  have hstart := h.start
  have hstop := h.stop
  refine ⟨h.best_fits, h.low, h.high, h.start, by omega, fun k hk hkn hfit => ?_⟩
  exact hmid (hclosed _ k (by omega) (by omega) hkn hfit)

/-- **The loop** ends with the largest number up to `n` that fits. -/
theorem bisect_loop (hclosed : ∀ a b, m ≤ a → a ≤ b → b ≤ n → fits b → fits a) {fuel lo hi best : Nat}
    (h : Bisecting fits m n lo hi best) (hfuel : hi + 1 - lo < fuel) :
    m ≤ bisect fits fuel lo hi best ∧ bisect fits fuel lo hi best ≤ n ∧ fits (bisect fits fuel lo hi best) ∧
      ∀ k, bisect fits fuel lo hi best < k → k ≤ n → ¬ fits k := by
  induction fuel generalizing lo hi best with
  | zero => omega
  | succ fuel ih =>
    rw [bisect]
    dsimp only
    split_ifs with hlt hmid h0
    · -- the range is empty: what is above `best` is above `hi`
      refine ⟨h.low, h.high, h.best_fits, fun k hk hkn => h.above k ?_ hkn⟩
      have := h.start
      omega
    · exact ih (h.up (Nat.not_lt.1 hlt) hmid) (by omega)
    · -- `lo` is 0 and does not fit, yet `best` does
      have hstart := h.start
      have hlow := h.low
      exact absurd (hclosed _ best (by omega) (by omega) h.high h.best_fits) hmid
    · exact ih (h.down (Nat.not_lt.1 hlt) hclosed hmid) (by omega)

/-- **The search** between a number that fits and `n`. -/
theorem bisect_spec (hclosed : ∀ a b, m ≤ a → a ≤ b → b ≤ n → fits b → fits a) (hm : fits m) (hle : m ≤ n) :
    m ≤ bisect fits (n + 2 - m) m n m ∧ bisect fits (n + 2 - m) m n m ≤ n ∧
      fits (bisect fits (n + 2 - m) m n m) ∧ ∀ k, bisect fits (n + 2 - m) m n m < k → k ≤ n → ¬ fits k :=
  bisect_loop hclosed
    ⟨hm, Nat.le_refl m, hle, ⟨Nat.le_refl m, Nat.le_succ m⟩, Nat.le_refl n,
      fun _ hk hkn _ => absurd hkn (Nat.not_le.2 hk)⟩
    (by omega)

example : bisect (fun k => 3 * k ≤ 20) 9 1 8 1 = 6 := by decide

end DS4.Lib
