/-
  Experiments: which buckets are assigned to which variant.

  A weight of zero is taken for a missing one, and replaced by an equal share.

  * `scan_eq_some_iff`: what the loop over the weights finds;
  * `allocation_iff`: when the buckets are those of the weights.
-/
import AuditTransparency.FeatureFlags.Provider
import Mathlib.Algebra.Order.BigOperators.Group.Finset
import Mathlib.Algebra.Order.BigOperators.Group.List
import Mathlib.Algebra.BigOperators.Fin
import Mathlib.Tactic.Linarith
import Mathlib.Tactic.Positivity

namespace FeatureFlags.Provider

open Finset

/-! ## The loop -/

section
variable {w : ℕ → ℚ} {b : ℚ}

/-- The loop finds the first index whose cumulative weight is above the bucket. -/
theorem scan_eq_some_iff (hw : ∀ j, 0 ≤ w j) {k i m : ℕ} (hb : ∑ j ∈ range i, w j ≤ b) :
    scan w b k i (∑ j ∈ range i, w j) = some m ↔
      (i ≤ m ∧ m < i + k) ∧ ∑ j ∈ range m, w j ≤ b ∧ b < ∑ j ∈ range (m + 1), w j := by
  induction k generalizing i with
  | zero =>
    rw [scan]
    refine iff_of_false nofun fun h => ?_
    omega
  | succ k ih =>
    rw [scan, ← sum_range_succ]
    split_ifs with hlt
    · rw [Option.some.injEq]
      constructor
      · rintro rfl
        exact ⟨⟨le_rfl, by omega⟩, hb, hlt⟩
      · rintro ⟨⟨him, -⟩, hle, -⟩
        by_contra hne
        have hmono : ∑ j ∈ range (i + 1), w j ≤ ∑ j ∈ range m, w j :=
          sum_le_sum_of_subset_of_nonneg (range_mono (by omega)) fun j _ _ => hw j
        exact absurd (hmono.trans hle) (not_le.2 hlt)
    · rw [ih (not_lt.1 hlt)]
      constructor
      · rintro ⟨⟨him, hmk⟩, h⟩
        exact ⟨⟨by omega, by omega⟩, h⟩
      · rintro ⟨⟨him, hmk⟩, hle, hgt⟩
        have hne : m ≠ i := by
          rintro rfl
          exact hlt hgt
        exact ⟨⟨by omega, by omega⟩, hle, hgt⟩

/-- Below the sum of `k` weights, it is one of the first `k`. -/
theorem exists_scan (hw : ∀ j, 0 ≤ w j) {k n : ℕ} (hk : k ≤ n) (h0 : 0 ≤ b)
    (hb : b < ∑ j ∈ range k, w j) :
    ∃ m < k, scan w b n 0 0 = some m ∧ ∑ j ∈ range m, w j ≤ b ∧ b < ∑ j ∈ range (m + 1), w j := by
  have hex : ∃ i, b < ∑ j ∈ range (i + 1), w j := by
    rcases Nat.eq_zero_or_pos k with rfl | hpos
    · rw [sum_range_zero] at hb
      exact absurd hb (not_lt.2 h0)
    · exact ⟨k - 1, by rwa [Nat.sub_add_cancel hpos]⟩
  classical
  have hfind := Nat.find_spec hex
  have hle : ∑ j ∈ range (Nat.find hex), w j ≤ b := by
    rcases Nat.eq_zero_or_pos (Nat.find hex) with h | h
    · rwa [h, sum_range_zero]
    · have hmin := Nat.find_min hex (Nat.sub_lt h Nat.one_pos)
      rw [Nat.sub_add_cancel h] at hmin
      exact not_lt.1 hmin
  have hlt : Nat.find hex < k := by
    by_contra hge
    have hmono : ∑ j ∈ range k, w j ≤ ∑ j ∈ range (Nat.find hex), w j :=
      sum_le_sum_of_subset_of_nonneg (range_mono (not_lt.1 hge)) fun j _ _ => hw j
    exact absurd (hmono.trans hle) (not_le.2 hb)
  refine ⟨Nat.find hex, hlt, ?_, hle, hfind⟩
  have h : scan w b n 0 (∑ j ∈ range 0, w j) = some (Nat.find hex) ↔ _ :=
    scan_eq_some_iff hw (by rwa [sum_range_zero])
  rw [sum_range_zero] at h
  exact h.2 ⟨⟨Nat.zero_le _, by omega⟩, hle, hfind⟩

end

/-! ## Weights -/

/-- The sum of the weights before a variant. -/
def before (weights : List ℕ) (i : ℕ) : ℕ := (weights.take i).sum

/-- The weights of an experiment: one for each variant, of which the sum is 100. -/
structure Weighted (experiment : ExperimentConfig) (weights : List ℕ) : Prop where
  weights_eq : experiment.weights = weights.map fun (w : ℕ) => (w : ℚ)
  length_eq : weights.length = experiment.variants.length
  sum_eq : weights.sum = 100

section
variable {experiment : ExperimentConfig} {weights : List ℕ} {i j b : ℕ}

theorem before_succ (weights : List ℕ) (i : ℕ) :
    before weights (i + 1) = before weights i + weights.getD i 0 := by
  rw [before, before, List.take_add_one, List.sum_append, List.getD_eq_getElem?_getD]
  cases weights[i]? with
  | none => rfl
  | some w => simp

theorem before_mono (weights : List ℕ) (h : i ≤ j) : before weights i ≤ before weights j :=
  (List.take_prefix_take_left h).sublist.sum_le_sum fun _ _ => Nat.zero_le _

theorem Weighted.before_length (h : Weighted experiment weights) :
    before weights experiment.variants.length = 100 := by
  rw [before, ← h.length_eq, List.take_length, h.sum_eq]

theorem Weighted.before_le (h : Weighted experiment weights) (i : ℕ) : before weights i ≤ 100 := by
  rw [← h.sum_eq]
  exact (List.take_sublist i weights).sum_le_sum fun _ _ => Nat.zero_le _

theorem Weighted.weight_eq (h : Weighted experiment weights) (i : ℕ) : experiment.weight i =
    if weights.getD i 0 = 0 then 100 / (experiment.variants.length : ℚ) else (weights.getD i 0 : ℚ) := by
  have hget : experiment.weights.getD i 0 = (weights.getD i 0 : ℕ) := by
    rw [h.weights_eq, List.getD_eq_getElem?_getD, List.getD_eq_getElem?_getD, List.getElem?_map]
    cases weights[i]? with
    | none => rfl
    | some w => rfl
  rw [ExperimentConfig.weight, hget]
  simp only [Nat.cast_eq_zero]

theorem Weighted.weight_nonneg (h : Weighted experiment weights) (i : ℕ) : 0 ≤ experiment.weight i := by
  rw [h.weight_eq]
  split_ifs
  · positivity
  · positivity

/-- Up to the first weight of zero, the loop adds the weights. -/
theorem Weighted.sum_weight (h : Weighted experiment weights) (hpos : ∀ j < i, weights.getD j 0 ≠ 0) :
    ∑ j ∈ range i, experiment.weight j = before weights i := by
  induction i with
  | zero => rfl
  | succ i ih =>
    rw [sum_range_succ, ih fun j hj => hpos j (Nat.lt_succ_of_lt hj), h.weight_eq,
      if_neg (hpos i (Nat.lt_succ_self i)), before_succ, Nat.cast_add]

/-- No variant of weight zero comes before one of another weight. -/
def ZerosLast (experiment : ExperimentConfig) (weights : List ℕ) : Prop :=
  ∀ i j, i < j → j < experiment.variants.length → weights.getD i 0 = 0 → weights.getD j 0 = 0

/-- The buckets of a variant are those between the sums of the weights. -/
def Allocated (experiment : ExperimentConfig) (weights : List ℕ) (i : ℕ) : Prop :=
  ∀ b < 100, experiment.assign b = i ↔ before weights i ≤ b ∧ b < before weights (i + 1)

/-- The variant of a bucket, before the first weight of zero. -/
theorem Weighted.assign_spec (h : Weighted experiment weights) {k : ℕ} (hk : k ≤ experiment.variants.length)
    (hpos : ∀ j < k, weights.getD j 0 ≠ 0) (hb : b < before weights k) :
    experiment.assign b < k ∧ before weights (experiment.assign b) ≤ b ∧
      b < before weights (experiment.assign b + 1) := by
  have hsum : (b : ℚ) < ∑ j ∈ range k, experiment.weight j := by
    rw [h.sum_weight hpos]
    exact_mod_cast hb
  obtain ⟨m, hm, hscan, hle, hlt⟩ := exists_scan h.weight_nonneg hk (Nat.cast_nonneg b) hsum
  have hassign : experiment.assign b = m := by
    rw [ExperimentConfig.assign, hscan, Option.getD_some]
  rw [h.sum_weight fun j hj => hpos j (by omega)] at hle hlt
  rw [hassign]
  exact ⟨hm, by exact_mod_cast hle, by exact_mod_cast hlt⟩

/-- A bucket is between the sums of one variant only. -/
theorem between_unique (hi : before weights i ≤ b ∧ b < before weights (i + 1))
    (hj : before weights j ≤ b ∧ b < before weights (j + 1)) : i = j := by
  by_contra hne
  rcases Nat.lt_or_gt_of_ne hne with hlt | hlt
  · exact absurd (hi.2.trans_le ((before_mono weights hlt).trans hj.1)) (lt_irrefl b)
  · exact absurd (hj.2.trans_le ((before_mono weights hlt).trans hi.1)) (lt_irrefl b)

/-- Where the first weight of zero is, if anywhere. -/
theorem exists_first_zero (weights : List ℕ) (n : ℕ) :
    ∃ z ≤ n, (∀ j < z, weights.getD j 0 ≠ 0) ∧ (z < n → weights.getD z 0 = 0) := by
  induction n with
  | zero => exact ⟨0, le_rfl, nofun, nofun⟩
  | succ n ih =>
    obtain ⟨z, hz, hpos, hzero⟩ := ih
    rcases Nat.lt_or_ge z n with hlt | hge
    · exact ⟨z, by omega, hpos, fun _ => hzero hlt⟩
    obtain rfl := Nat.le_antisymm hz hge
    by_cases h0 : weights.getD z 0 = 0
    · exact ⟨z, Nat.le_succ z, hpos, fun _ => h0⟩
    · refine ⟨z + 1, le_rfl, fun j hj => ?_, fun h => absurd h (lt_irrefl _)⟩
      rcases Nat.lt_succ_iff_lt_or_eq.1 hj with hj | rfl
      · exact hpos j hj
      · exact h0

/-- Weights of zero add nothing. -/
theorem before_eq_of_zeros {k : ℕ} (hik : i ≤ k) (hzero : ∀ j, i ≤ j → j < k → weights.getD j 0 = 0) :
    before weights k = before weights i := by
  induction k, hik using Nat.le_induction with
  | base => rfl
  | succ k hik ih =>
    rw [before_succ, hzero k hik (Nat.lt_succ_self k), Nat.add_zero]
    exact ih fun j hij hjk => hzero j hij (Nat.lt_succ_of_lt hjk)

/-- Every bucket is between the sums of its variant. -/
theorem Weighted.between_assign (h : Weighted experiment weights) (hlast : ZerosLast experiment weights)
    (hb : b < 100) :
    before weights (experiment.assign b) ≤ b ∧ b < before weights (experiment.assign b + 1) := by
  obtain ⟨z, hz, hpos, hzero⟩ := exists_first_zero weights experiment.variants.length
  have hbefore : before weights z = 100 := by
    rw [← h.before_length]
    refine (before_eq_of_zeros hz fun j hzj hj => ?_).symm
    rcases Nat.eq_or_lt_of_le hzj with rfl | hlt
    · exact hzero hj
    · exact hlast z j hlt hj (hzero (hlt.trans hj))
  exact (h.assign_spec hz hpos (hbefore.symm ▸ hb)).2

theorem Weighted.allocated (h : Weighted experiment weights) (hlast : ZerosLast experiment weights) (i : ℕ) :
    Allocated experiment weights i := by
  intro b hb
  constructor
  · rintro rfl
    exact h.between_assign hlast hb
  · exact between_unique (h.between_assign hlast hb)

/-- The number of buckets of a variant. -/
def buckets (experiment : ExperimentConfig) (i : ℕ) : ℕ :=
  ((range 100).filter fun b => experiment.assign b = i).card

theorem Weighted.buckets_eq (h : Weighted experiment weights) (hi : Allocated experiment weights i) :
    buckets experiment i = weights.getD i 0 := by
  have hIco : (range 100).filter (fun b => experiment.assign b = i) =
      Ico (before weights i) (before weights (i + 1)) := by
    ext b
    rw [mem_filter, mem_range, mem_Ico]
    constructor
    · rintro ⟨hb, hassign⟩
      exact (hi b hb).1 hassign
    · intro hbetween
      have hb : b < 100 := hbetween.2.trans_le (h.before_le (i + 1))
      exact ⟨hb, (hi b hb).2 hbetween⟩
  rw [buckets, hIco, Nat.card_Ico, before_succ, Nat.add_sub_cancel_left]

/-- The first variant of weight zero is given the bucket that its weight ends before. -/
theorem Weighted.assign_first_zero (h : Weighted experiment weights) {z : ℕ}
    (hz : z < experiment.variants.length) (hpos : ∀ j < z, weights.getD j 0 ≠ 0)
    (hzero : weights.getD z 0 = 0) :
    experiment.assign (before weights z) = z := by
  have hsum := h.sum_weight hpos
  have hn : (0 : ℚ) < experiment.variants.length := by exact_mod_cast (Nat.zero_le z).trans_lt hz
  have hweight : 0 < experiment.weight z := by
    rw [h.weight_eq, if_pos hzero]
    positivity
  have hscan : scan experiment.weight (before weights z) experiment.variants.length 0
      (∑ j ∈ range 0, experiment.weight j) = some z := by
    rw [scan_eq_some_iff h.weight_nonneg (by rw [sum_range_zero]; exact Nat.cast_nonneg _)]
    refine ⟨⟨Nat.zero_le z, by omega⟩, hsum.le, ?_⟩
    rw [sum_range_succ, hsum]
    linarith only [hweight]
  rw [ExperimentConfig.assign, ← sum_range_zero experiment.weight, hscan, Option.getD_some]

theorem Weighted.zerosLast (h : Weighted experiment weights)
    (hall : ∀ i < experiment.variants.length, Allocated experiment weights i) :
    ZerosLast experiment weights := by
  intro i j hij hj hi
  by_contra hne
  obtain ⟨z, hz, hpos, hzero⟩ := exists_first_zero weights (i + 1)
  have hzi : z ≤ i := by
    by_contra hgt
    exact hpos i (by omega) hi
  have hzn : z < experiment.variants.length := by omega
  have hz0 : weights.getD z 0 = 0 := hzero (by omega)
  have hb : before weights z < 100 := by
    have hsucc : before weights z + weights.getD j 0 ≤ before weights (j + 1) := by
      rw [before_succ]
      exact Nat.add_le_add_right (before_mono weights (by omega)) _
    have hle := h.before_le (j + 1)
    omega
  have hbetween := (hall z hzn (before weights z) hb).1 (h.assign_first_zero hzn hpos hz0)
  rw [before_succ, hz0] at hbetween
  exact lt_irrefl _ hbetween.2

/-! ## Experiments -/

/-- The variant that a user is given. -/
def variantOf (experiment : ExperimentConfig) (context : EvaluationContext) : String :=
  experiment.variants.getD (experiment.assign (calculateBucket experiment.experimentId context.userKey)) ""

/-- What an active experiment of a registered flag returns. -/
theorem evaluateVariant_eq {flags : String → Option FeatureFlag} {key : String} {flag : FeatureFlag}
    (hflag : flags key = some flag) (hactive : flag.experiment.isActive = true)
    (hn : 0 < flag.experiment.variants.length) (fallback : String) (context : EvaluationContext) :
    evaluateVariant flags key fallback context =
      if flag.status = .killed ∨ flag.killSwitch.isTriggered = true then
        ⟨key, "killed", none, .killSwitch, true⟩
      else ⟨key, variantOf flag.experiment context, some (variantOf flag.experiment context), .experiment,
        false⟩ := by
  have hrun : ¬(flag.experiment.isActive = false ∨ flag.experiment.variants.length = 0) := by
    rintro (hfalse | hzero)
    · exact absurd (hactive.symm.trans hfalse) nofun
    · omega
  rw [evaluateVariant, hflag]
  simp only [if_neg hrun]
  rfl

/-- The allocation of an active experiment: buckets are below 100, a user is given the variant of their bucket,
and a variant has the buckets between the sums of the weights, as many as its weight. -/
theorem allocation_iff {flags : String → Option FeatureFlag} {key : String} {flag : FeatureFlag}
    {weights : List ℕ} (hflag : flags key = some flag) (hactive : flag.experiment.isActive = true)
    (hn : 0 < flag.experiment.variants.length) (h : Weighted flag.experiment weights) :
    ((∀ seed userKey, calculateBucket seed userKey < 100) ∧
      (∀ fallback context, evaluateVariant flags key fallback context =
        if flag.status = .killed ∨ flag.killSwitch.isTriggered = true then
          ⟨key, "killed", none, .killSwitch, true⟩
        else ⟨key, variantOf flag.experiment context, some (variantOf flag.experiment context), .experiment,
          false⟩) ∧
      ∀ i < flag.experiment.variants.length, Allocated flag.experiment weights i ∧
        buckets flag.experiment i = weights.getD i 0 ∧
        (weights.getD i 0 = 0 → ∀ b < 100, flag.experiment.assign b ≠ i)) ↔
    ZerosLast flag.experiment weights := by
  constructor
  · rintro ⟨-, -, hall⟩
    exact h.zerosLast fun i hi => (hall i hi).1
  · intro hlast
    refine ⟨calculateBucket_lt, evaluateVariant_eq hflag hactive hn, fun i _ => ?_⟩
    have hi := h.allocated hlast i
    refine ⟨hi, h.buckets_eq hi, fun hzero b hb hassign => ?_⟩
    have hbetween := (hi b hb).1 hassign
    rw [before_succ, hzero] at hbetween
    omega

/-- An experiment on two variants. -/
def pair (weights : List ℕ) : ExperimentConfig where
  isActive := true
  experimentId := "checkout"
  variants := ["control", "treatment"]
  weights := weights.map fun (w : ℕ) => (w : ℚ)
  winnerVariant := none

def pairFlag (weights : List ℕ) : FeatureFlag where
  key := "checkout"
  type := .multivariate
  status := .active
  defaultValue := false
  canary := ⟨false, 0, 0, 0, 0, 0, 0, false, none⟩
  experiment := pair weights
  killSwitch := ⟨false, "", "", 0, []⟩
  updatedAt := 0
  updatedBy := "owner"
  description := ""

theorem weighted_pair {weights : List ℕ} (hlen : weights.length = 2) (hsum : weights.sum = 100) :
    Weighted (pairFlag weights).experiment weights :=
  ⟨rfl, hlen, hsum⟩

theorem allocation_iff_pair :
    ((∀ seed userKey, calculateBucket seed userKey < 100) ∧
      (∀ fallback context, evaluateVariant (fun _ => some (pairFlag [30, 70])) "checkout" fallback context =
        if (pairFlag [30, 70]).status = .killed ∨ (pairFlag [30, 70]).killSwitch.isTriggered = true then
          ⟨"checkout", "killed", none, .killSwitch, true⟩
        else ⟨"checkout", variantOf (pair [30, 70]) context, some (variantOf (pair [30, 70]) context),
          .experiment, false⟩) ∧
      ∀ i < 2, Allocated (pair [30, 70]) [30, 70] i ∧
        buckets (pair [30, 70]) i = [30, 70].getD i 0 ∧
        ([30, 70].getD i 0 = 0 → ∀ b < 100, (pair [30, 70]).assign b ≠ i)) ↔
    ZerosLast (pair [30, 70]) [30, 70] :=
  have hflag : (fun _ : String => some (pairFlag [30, 70])) "checkout" = some (pairFlag [30, 70]) := rfl
  allocation_iff hflag rfl (by decide) (weighted_pair rfl rfl)

/-- Under the weights 0 and 100, the bucket 0 is the first variant's. -/
theorem weight_zero_assigned : Weighted (pair [0, 100]) [0, 100] ∧ (pair [0, 100]).assign 0 = 0 ∧
    ¬Allocated (pair [0, 100]) [0, 100] 0 := by
  have h : Weighted (pair [0, 100]) [0, 100] := weighted_pair rfl rfl
  have hassign : (pair [0, 100]).assign 0 = 0 :=
    h.assign_first_zero (show 0 < 2 by decide) (fun j hj => absurd hj (Nat.not_lt_zero j)) rfl
  refine ⟨h, hassign, fun hall => ?_⟩
  exact absurd ((hall 0 (by decide)).1 hassign) (by decide)

end

end FeatureFlags.Provider
