/-
  VATDeterminationEngine — net and gross amounts (`src/vat_engine.rs`).

  VAT is added to a net amount, or is a part of a gross amount; both are rounded down, one
  to parts of 10000, the other to parts of 10000 and the rate.

  * `calculateAmounts_exclusive`, `calculateAmounts_inclusive`: what is returned;
  * `vatInGross_add`: the two quotients agree;
  * `calculateAmounts_inverse`: so what was added to a net amount is taken from its gross amount.
-/
import AuditTransparency.Soroban.Checked
import Mathlib.Algebra.Order.Ring.Nat

namespace VATDeterminationEngine

open Soroban

variable {x r : ℕ}

/-- `calculate_amounts`: the net amount, the VAT and the gross amount; `none` if it panics. -/
def calculateAmounts (supplyAmount vatRate : ℕ) (isInclusive : Bool) : Option (ℕ × ℕ × ℕ) :=
  if isInclusive then do
    let vatAmount := (← mulIn 64 supplyAmount vatRate) / (← addIn 64 10000 vatRate)
    let netAmount ← subIn supplyAmount vatAmount
    return (netAmount, vatAmount, supplyAmount)
  else do
    let vatAmount := (← mulIn 64 supplyAmount vatRate) / 10000
    return (supplyAmount, vatAmount, ← addIn 64 supplyAmount vatAmount)

/-- The VAT on a net amount. -/
def vatOnNet (x r : ℕ) : ℕ := x * r / 10000

/-- The VAT in a gross amount. -/
def vatInGross (x r : ℕ) : ℕ := x * r / (10000 + r)

theorem vatInGross_le (x r : ℕ) : vatInGross x r ≤ x := by
  refine Nat.div_le_of_le_mul ?_
  rw [Nat.mul_comm]
  exact Nat.mul_le_mul_right x (Nat.le_add_left r 10000)

theorem calculateAmounts_exclusive (hprod : x * r < 2 ^ 64) : calculateAmounts x r false =
    (addIn 64 x (vatOnNet x r)).map fun gross => (x, vatOnNet x r, gross) := by
  rw [calculateAmounts, if_neg Bool.false_ne_true, mulIn_of_lt hprod, Option.bind_eq_bind, Option.bind_some]
  show (addIn 64 x (vatOnNet x r) >>= _) = _
  rw [Option.map_eq_bind]
  rfl

/-- There is no underflow. -/
theorem calculateAmounts_inclusive (hr : r < 2 ^ 32) (hprod : x * r < 2 ^ 64) :
    calculateAmounts x r true = some (x - vatInGross x r, vatInGross x r, x) := by
  have hparts : 10000 + r < 2 ^ 64 := by omega
  rw [calculateAmounts, if_pos rfl, mulIn_of_lt hprod, addIn_of_lt hparts, Option.bind_eq_bind, Option.bind_some,
    Option.bind_some]
  show (subIn x (vatInGross x r) >>= _) = _
  rw [subIn_of_le (vatInGross_le x r)]
  rfl

/-- **The VAT on a net amount is the VAT in its gross amount**: with `x * r = 10000 * v + m`, the product for the
    gross amount is `(x + v) * r = (10000 + r) * v + m`, where `m` is less than both divisors. -/
theorem vatInGross_add (x r : ℕ) : vatInGross (x + vatOnNet x r) r = vatOnNet x r := by
  obtain ⟨v, hv⟩ : ∃ v, v = vatOnNet x r := ⟨_, rfl⟩
  have hprod : (x + v) * r = (10000 + r) * v + x * r % 10000 := by
    have hdiv : 10000 * v + x * r % 10000 = x * r := by
      rw [hv]
      exact Nat.div_add_mod _ _
    calc (x + v) * r = x * r + r * v := by rw [Nat.add_mul, Nat.mul_comm v]
      _ = 10000 * v + x * r % 10000 + r * v := by rw [hdiv]
      _ = (10000 + r) * v + x * r % 10000 := by rw [Nat.add_mul, Nat.add_right_comm]
  have hlt : x * r % 10000 < 10000 + r := (Nat.mod_lt _ (by decide)).trans_le (Nat.le_add_right 10000 r)
  rw [← hv, vatInGross, hprod, Nat.mul_add_div (by omega), Nat.div_eq_of_lt hlt, Nat.add_zero]

/-- The gross amount fits if its product with the rate does. -/
theorem gross_lt (hx : x < 2 ^ 64) (hgross : (x + vatOnNet x r) * r < 2 ^ 64) : x + vatOnNet x r < 2 ^ 64 := by
  rcases Nat.eq_zero_or_pos r with rfl | hr
  · rwa [vatOnNet, Nat.mul_zero, Nat.zero_div, Nat.add_zero]
  · exact (Nat.le_mul_of_pos_right _ hr).trans_lt hgross

/-- **The two computations are inverse**, and in both the net amount and the VAT add up to the gross amount, for
    every amount and rate whose products fit. -/
theorem calculateAmounts_inverse (hx : x < 2 ^ 64) (hr : r < 2 ^ 32) (hprod : x * r < 2 ^ 64) :
    (∀ net vat gross, calculateAmounts x r false = some (net, vat, gross) → net + vat = gross ∧
      (gross * r < 2 ^ 64 → calculateAmounts gross r true = some (net, vat, gross))) ∧
    (∃ net vat, calculateAmounts x r true = some (net, vat, x) ∧ net + vat = x) ∧
    ((x + vatOnNet x r) * r < 2 ^ 64 → (calculateAmounts x r false).isSome) := by
  refine ⟨?_, ⟨_, _, calculateAmounts_inclusive hr hprod, Nat.sub_add_cancel (vatInGross_le x r)⟩, ?_⟩
  · intro net vat gross h
    rw [calculateAmounts_exclusive hprod, Option.map_eq_some_iff] at h
    obtain ⟨_, hadd, heq⟩ := h
    obtain ⟨-, rfl⟩ := addIn_eq_some.1 hadd
    cases heq
    refine ⟨rfl, ?_⟩
    intro hgross
    rw [calculateAmounts_inclusive hr hgross, vatInGross_add, Nat.add_sub_cancel]
  · intro hgross
    rw [calculateAmounts_exclusive hprod, addIn_of_lt (gross_lt hx hgross)]
    rfl

/-- 33.33 with 19 per cent: the VAT is 6.33, in both directions. -/
theorem calculateAmounts_inverse_rounded :
    calculateAmounts 3333 1900 false = some (3333, 633, 3966) ∧
      calculateAmounts 3966 1900 true = some (3333, 633, 3966) := by
  have hnet : calculateAmounts 3333 1900 false = some (3333, 633, 3966) := by decide
  exact ⟨hnet, ((calculateAmounts_inverse (by decide) (by decide) (by decide)).1 _ _ _ hnet).2 (by decide)⟩

end VATDeterminationEngine
