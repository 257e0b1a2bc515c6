/-
  Soroban contracts — quotients that are rounded down.

  * `sum_div_mul_le`, `sum_lt_sum_div_mul`: a sum of rounded quotients is at most the quotient of
    the sum, and misses it by less than the number of its parts;
  * `sum_shares_le`, `lt_sum_shares`: so do the shares of a whole.
-/
import Mathlib.Algebra.BigOperators.Group.List.Basic
import Mathlib.Algebra.BigOperators.Ring.List
import Mathlib.Algebra.Order.Ring.Nat
import Mathlib.Tactic.Ring

namespace Soroban

variable {l : List ℕ} {k n : ℕ}

theorem sum_div_mul_le (l : List ℕ) (k : ℕ) : (l.map (· / k)).sum * k ≤ l.sum := by
  induction l with
  | nil => rw [List.map_nil, List.sum_nil, Nat.zero_mul]
  | cons a l ih =>
    rw [List.map_cons, List.sum_cons, List.sum_cons, Nat.add_mul]
    exact Nat.add_le_add (Nat.div_mul_le_self a k) ih

theorem sum_lt_sum_div_mul (hk : 0 < k) (hl : l ≠ []) : l.sum < ((l.map (· / k)).sum + l.length) * k := by
  have hdiv : ∀ a, a < (a / k + 1) * k := by
    intro a
    rw [Nat.mul_comm]
    exact Nat.lt_mul_div_succ a hk
  induction l with
  | nil => exact absurd rfl hl
  | cons a l ih =>
    have hcons : ((List.map (· / k) (a :: l)).sum + (a :: l).length) * k =
        (a / k + 1) * k + ((l.map (· / k)).sum + l.length) * k := by
      rw [List.map_cons, List.sum_cons, List.length_cons]
      ring
    rw [hcons, List.sum_cons]
    rcases eq_or_ne l [] with rfl | hne
    · rw [List.sum_nil, List.map_nil, List.sum_nil, List.length_nil, Nat.zero_mul]
      exact hdiv a
    · exact Nat.add_lt_add (hdiv a) (ih hne)

/-- The shares of `n` in parts of `k` that add up to the whole are at most `n`. -/
theorem sum_shares_le (hk : 0 < k) (hl : l.sum = k) : (l.map fun w => n * w / k).sum ≤ n := by
  have hle := sum_div_mul_le (l.map (n * ·)) k
  rw [List.sum_map_mul_left, List.map_id', hl, List.map_map] at hle
  exact Nat.le_of_mul_le_mul_right hle hk

/-- They miss `n` by less than their number. -/
theorem lt_sum_shares (hk : 0 < k) (hl : l.sum = k) : n < (l.map fun w => n * w / k).sum + l.length := by
  have hne : l ≠ [] := by
    rintro rfl
    exact hk.ne hl
  have hlt := sum_lt_sum_div_mul hk (l := l.map (n * ·)) (by simpa using hne)
  rw [List.sum_map_mul_left, List.map_id', hl, List.map_map, List.length_map] at hlt
  exact Nat.lt_of_mul_lt_mul_right hlt

end Soroban
