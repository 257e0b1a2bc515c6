/-
  CryptoReportingEngine — the cost basis of what is sold (`src/tax_engines.rs`).

  Lots are sold in their order.  The part of a lot that is sold is computed in millionths, and
  its cost from these, so that the cost of a part is rounded down twice.

  * `Fits`: the intermediate products and sums of a computation fit;
  * `fifoLoop_eq`: the loop computes the sums over the lots;
  * `calculateFifoCostBasis_spec`: what is processed, and the cost, which is exact on full lots,
    at most the rational cost, and monotone.

  Of a `CryptoHolding` the computation reads the balance and the cost basis.
-/
import AuditTransparency.Soroban.Checked
import AuditTransparency.Soroban.Fifo
import Mathlib.Algebra.Order.Field.Rat
import Mathlib.Data.Nat.Cast.Order.Field
import Mathlib.Tactic.Positivity
import Mathlib.Tactic.Ring

namespace CryptoReportingEngine

open Soroban

structure CryptoHolding where
  balance : ℕ
  costBasis : ℕ
  deriving DecidableEq

variable {holding : CryptoHolding} {holdings : List CryptoHolding} {amountSold totalCost processed k : ℕ}

/-! ## The computation -/

/-- The loop in `calculate_fifo_cost_basis`. -/
def fifoLoop (amountSold : ℕ) : List CryptoHolding → ℕ → ℕ → Option (ℕ × ℕ)
  | [], totalCost, processed => some (totalCost, processed)
  | holding :: holdings, totalCost, processed =>
    if processed ≥ amountSold then some (totalCost, processed)
    else do
      let amountToProcess :=
        if (← addIn 64 processed holding.balance) > amountSold then amountSold - processed else holding.balance
      let proportion := (← mulIn 64 amountToProcess 1000000) / max holding.balance 1
      let cost := (← mulIn 64 holding.costBasis proportion) / 1000000
      fifoLoop amountSold holdings (saturatingAddIn 64 totalCost cost)
        (saturatingAddIn 64 processed amountToProcess)

/-- `calculate_fifo_cost_basis`: the cost, and how much was processed; `none` if it panics. -/
def calculateFifoCostBasis (holdings : List CryptoHolding) (amountSold : ℕ) : Option (ℕ × ℕ) :=
  fifoLoop amountSold holdings 0 0

/-- The part of a lot, in millionths. -/
def CryptoHolding.proportion (h : CryptoHolding) (k : ℕ) : ℕ := k * 1000000 / h.balance

/-- The cost of a part of a lot. -/
def CryptoHolding.costOf (h : CryptoHolding) (k : ℕ) : ℕ := h.costBasis * h.proportion k / 1000000

/-- The rational cost of a part of a lot. -/
def CryptoHolding.exactCostOf (h : CryptoHolding) (k : ℕ) : ℚ := h.costBasis * k / h.balance

/-- The exact cost of what is sold. -/
def exactCost (holdings : List CryptoHolding) (amountSold : ℕ) : ℚ :=
  fifoSum CryptoHolding.balance CryptoHolding.exactCostOf holdings amountSold

/-- **The intermediate products and sums fit**, up to the lot where the loop ends. -/
def Fits (amountSold : ℕ) : List CryptoHolding → ℕ → ℕ → Prop
  | [], _, _ => True
  | holding :: holdings, totalCost, processed => processed < amountSold →
    let k := min holding.balance (amountSold - processed)
    processed + holding.balance < 2 ^ 64 ∧ k * 1000000 < 2 ^ 64 ∧
      holding.costBasis * holding.proportion k < 2 ^ 64 ∧ totalCost + holding.costOf k < 2 ^ 64 ∧
      Fits amountSold holdings (totalCost + holding.costOf k) (processed + k)

/-! ## One lot -/

theorem CryptoHolding.costOf_zero (h : CryptoHolding) : h.costOf 0 = 0 := by
  rw [costOf, proportion, Nat.zero_mul, Nat.zero_div, Nat.mul_zero, Nat.zero_div]

/-- A full lot costs its cost basis. -/
theorem CryptoHolding.costOf_balance (hpos : 0 < holding.balance) :
    holding.costOf holding.balance = holding.costBasis := by
  rw [costOf, proportion, Nat.mul_div_cancel_left _ hpos, Nat.mul_div_cancel _ (by decide)]

theorem CryptoHolding.costOf_monotone (h : CryptoHolding) : Monotone h.costOf := by
  intro j k hle
  exact Nat.div_le_div_right (Nat.mul_le_mul_left _ (Nat.div_le_div_right (Nat.mul_le_mul_right _ hle)))

/-- The cost is rounded down. -/
theorem CryptoHolding.costOf_le (h : CryptoHolding) (k : ℕ) : (h.costOf k : ℚ) ≤ h.exactCostOf k := by
  have hproportion : (h.proportion k : ℚ) ≤ k * 1000000 / h.balance := by
    have hle : ((k * 1000000 / h.balance : ℕ) : ℚ) ≤ ((k * 1000000 : ℕ) : ℚ) / (h.balance : ℚ) := Nat.cast_div_le
    rwa [Nat.cast_mul] at hle
  calc (h.costOf k : ℚ) ≤ ((h.costBasis * h.proportion k : ℕ) : ℚ) / (1000000 : ℕ) := Nat.cast_div_le
    _ = h.costBasis * h.proportion k / 1000000 := by rw [Nat.cast_mul]; rfl
    _ ≤ h.costBasis * (k * 1000000 / h.balance) / 1000000 := by gcongr
    _ = h.exactCostOf k := by rw [exactCostOf]; ring

/-! ## The loop -/

/-- **The loop computes the sums over the lots.** -/
theorem fifoLoop_eq (hpos : ∀ h ∈ holdings, 0 < h.balance) (hle : processed ≤ amountSold)
    (hfits : Fits amountSold holdings totalCost processed) :
    fifoLoop amountSold holdings totalCost processed =
      some (totalCost + fifoSum CryptoHolding.balance CryptoHolding.costOf holdings (amountSold - processed),
        processed + fifoSum CryptoHolding.balance (fun _ k => k) holdings (amountSold - processed)) := by
  induction holdings generalizing totalCost processed with
  | nil => rfl
  | cons holding holdings ih =>
    rw [List.forall_mem_cons] at hpos
    rw [fifoLoop]
    by_cases hdone : processed ≥ amountSold
    · have hzero : amountSold - processed = 0 := Nat.sub_eq_zero_of_le hdone
      rw [if_pos hdone, hzero, fifoSum_zero fun h _ => h.costOf_zero, fifoSum_zero fun _ _ => rfl]
      rfl
    · rw [if_neg hdone]
      obtain ⟨hbalance, hmillionths, hproduct, hcost, hrest⟩ := hfits (Nat.lt_of_not_le hdone)
      have htaken : (if processed + holding.balance > amountSold then amountSold - processed
          else holding.balance) = min holding.balance (amountSold - processed) := by
        split_ifs <;> omega
      have hmax : max holding.balance 1 = holding.balance := Nat.max_eq_left hpos.1
      have hprocessed : processed + min holding.balance (amountSold - processed) < 2 ^ 64 := by omega
      have hleft : amountSold - (processed + min holding.balance (amountSold - processed)) =
          amountSold - processed - holding.balance := by
        omega
      rw [addIn_of_lt hbalance, Option.bind_eq_bind, Option.bind_some, htaken]
      dsimp only
      rw [mulIn_of_lt hmillionths, Option.bind_some, hmax]
      show (mulIn 64 holding.costBasis (holding.proportion _)).bind (fun p => fifoLoop amountSold holdings
        (saturatingAddIn 64 totalCost (p / 1000000)) (saturatingAddIn 64 processed _)) = _
      rw [mulIn_of_lt hproduct, Option.bind_some]
      show fifoLoop amountSold holdings (saturatingAddIn 64 totalCost (holding.costOf _)) _ = _
      rw [saturatingAddIn_of_lt hcost, saturatingAddIn_of_lt hprocessed, ih hpos.2 (by omega) hrest, hleft, fifoSum,
        fifoSum, Nat.add_assoc, Nat.add_assoc]

/-- **FIFO cost basis.**  As much is processed as there is; the cost is that of the first lots where these are
    sold completely, at most the exact cost, and with the processed amount monotone in what is sold. -/
theorem calculateFifoCostBasis_spec (hpos : ∀ h ∈ holdings, 0 < h.balance) (hfits : Fits amountSold holdings 0 0) :
    ∃ cost processed, calculateFifoCostBasis holdings amountSold = some (cost, processed) ∧
      processed = min amountSold (holdings.map (·.balance)).sum ∧
      (∀ k, amountSold = ((holdings.take k).map (·.balance)).sum →
        cost = ((holdings.take k).map (·.costBasis)).sum) ∧
      (cost : ℚ) ≤ exactCost holdings amountSold ∧
      ∀ amount, amountSold ≤ amount → Fits amount holdings 0 0 →
        ∃ cost' processed', calculateFifoCostBasis holdings amount = some (cost', processed') ∧
          cost ≤ cost' ∧ processed ≤ processed' := by
  have hrun : ∀ amount, Fits amount holdings 0 0 → calculateFifoCostBasis holdings amount =
      some (fifoSum CryptoHolding.balance CryptoHolding.costOf holdings amount,
        min amount (holdings.map (·.balance)).sum) := by
    intro amount h
    rw [calculateFifoCostBasis, fifoLoop_eq hpos (Nat.zero_le _) h, Nat.sub_zero, Nat.zero_add, Nat.zero_add,
      fifoSum_size]
  refine ⟨_, _, hrun amountSold hfits, rfl, ?_, ?_, ?_⟩
  · intro k hk
    rw [hk, fifoSum_take fun h _ => h.costOf_zero]
    congr 1
    exact List.map_congr_left fun h hh => CryptoHolding.costOf_balance (hpos h (List.mem_of_mem_take hh))
  · exact fifoSum_le (Nat.castAddMonoidHom ℚ) (fun h _ k _ => h.costOf_le k) amountSold
  · intro amount hle h
    exact ⟨_, _, hrun amount h, fifoSum_mono (fun h _ => h.costOf_monotone) hle, min_le_min_right _ hle⟩

/-! ## Lots -/

/-- Three lots. -/
def lots : List CryptoHolding := [⟨3, 100⟩, ⟨5, 70⟩, ⟨2, 9⟩]

/-- Seven are sold, the first lot and four fifths of the second; then eight, which are the first two lots. -/
theorem calculateFifoCostBasis_spec_lots :
    (∃ cost processed, calculateFifoCostBasis lots 7 = some (cost, processed) ∧ processed = 7 ∧
      (cost : ℚ) ≤ exactCost lots 7 ∧ cost ≤ 170) ∧
      ∃ cost processed, calculateFifoCostBasis lots 8 = some (cost, processed) ∧ cost = 170 ∧ processed = 8 := by
  have hpos : ∀ h ∈ lots, 0 < h.balance := by decide
  have hseven : Fits 7 lots 0 0 := by simp [Fits, lots, CryptoHolding.costOf, CryptoHolding.proportion]
  have height : Fits 8 lots 0 0 := by simp [Fits, lots, CryptoHolding.costOf, CryptoHolding.proportion]
  obtain ⟨cost, processed, hrun, hprocessed, -, hbound, hmono⟩ := calculateFifoCostBasis_spec hpos hseven
  obtain ⟨cost', processed', hrun', hprocessed', hexact, -, -⟩ := calculateFifoCostBasis_spec hpos height
  obtain ⟨cost'', processed'', hrun'', hle, -⟩ := hmono 8 (by decide) height
  have hcost' : cost' = 170 := hexact 2 (by decide)
  obtain ⟨rfl, -⟩ := Prod.mk.inj (Option.some.inj (hrun'.symm.trans hrun''))
  exact ⟨⟨cost, processed, hrun, hprocessed, hbound, hcost' ▸ hle⟩, cost', processed', hrun', hcost', hprocessed'⟩

end CryptoReportingEngine
