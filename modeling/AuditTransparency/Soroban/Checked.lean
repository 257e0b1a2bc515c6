/-
  Soroban contracts — arithmetic of functions that do not use the storage.

  An operation on `w`-bit unsigned integers is `none` where it panics, and otherwise the
  operation on the numbers.
-/
import Mathlib.Algebra.Order.Ring.Nat

namespace Soroban

variable {w a b c : ℕ}

/-- `a + b` -/
def addIn (w a b : ℕ) : Option ℕ := if a + b < 2 ^ w then some (a + b) else none

/-- `a * b` -/
def mulIn (w a b : ℕ) : Option ℕ := if a * b < 2 ^ w then some (a * b) else none

/-- `a - b` -/
def subIn (a b : ℕ) : Option ℕ := if b ≤ a then some (a - b) else none

/-- `saturating_add` -/
def saturatingAddIn (w a b : ℕ) : ℕ := min (a + b) (2 ^ w - 1)

theorem addIn_of_lt (h : a + b < 2 ^ w) : addIn w a b = some (a + b) := if_pos h

theorem mulIn_of_lt (h : a * b < 2 ^ w) : mulIn w a b = some (a * b) := if_pos h

theorem subIn_of_le (h : b ≤ a) : subIn a b = some (a - b) := if_pos h

theorem saturatingAddIn_of_lt (h : a + b < 2 ^ w) : saturatingAddIn w a b = a + b :=
  Nat.min_eq_left (Nat.le_sub_one_of_lt h)

theorem addIn_eq_some : addIn w a b = some c ↔ a + b < 2 ^ w ∧ a + b = c := by
  rw [addIn, Option.ite_none_right_eq_some, Option.some_inj]

end Soroban
