/-
  RwaOracle — the price of a round.

  Feeds come with their reputations here.  The saturating sums of a round are the sums, capped (`foldl_weigh`),
  so that no order of the feeds matters (`runConsensus_perm`), and a mean is between the prices (`mean_bounds`).

  `price_of_round`: what an accepted round says of the feeds.
-/
import AuditTransparency.Oracle.Consensus
import Mathlib.Algebra.Order.BigOperators.Group.List
import Mathlib.Algebra.BigOperators.Ring.List

namespace RwaOracle

open Soroban

/-! ## Means -/

/-- The sum of the weights, and of the weighted prices. -/
def weightSum (l : List (ℕ × ℕ)) : ℕ := (l.map Prod.snd).sum

def priceSum (l : List (ℕ × ℕ)) : ℕ := (l.map fun p => p.1 * p.2).sum

theorem le_priceSum {lo : ℕ} {l : List (ℕ × ℕ)} (h : ∀ p ∈ l, lo ≤ p.1) : lo * weightSum l ≤ priceSum l := by
  rw [weightSum, ← List.sum_map_mul_left]
  exact List.sum_le_sum fun p hp => Nat.mul_le_mul_right p.2 (h p hp)

theorem priceSum_le {hi : ℕ} {l : List (ℕ × ℕ)} (h : ∀ p ∈ l, p.1 ≤ hi) : priceSum l ≤ hi * weightSum l := by
  rw [weightSum, ← List.sum_map_mul_left]
  exact List.sum_le_sum fun p hp => Nat.mul_le_mul_right p.2 (h p hp)

/-- A weighted mean is between the bounds of the prices. -/
theorem mean_bounds {lo hi : ℕ} {l : List (ℕ × ℕ)} (h : ∀ p ∈ l, lo ≤ p.1 ∧ p.1 ≤ hi)
    (hweight : 0 < weightSum l) : lo ≤ priceSum l / weightSum l ∧ priceSum l / weightSum l ≤ hi := by
  constructor
  · exact (Nat.le_div_iff_mul_le hweight).2 (le_priceSum fun p hp => (h p hp).1)
  · rw [← Nat.mul_div_cancel hi hweight]
    exact Nat.div_le_div_right (priceSum_le fun p hp => (h p hp).2)

/-! ## Saturating sums -/

def cap128 (n : ℕ) : ℕ := min n (2 ^ 128 - 1)

theorem saturatingAdd_cap128 (a b : ℕ) : saturatingAdd (cap128 a) b = cap128 (a + b) := by
  simp only [saturatingAdd, cap128]
  omega

theorem foldl_weigh {l : List (ℕ × ℕ × ℕ)} (a b c : ℕ) : l.foldl weigh (cap128 a, cap128 b, cap128 c) =
    (cap128 (a + (l.map fun e => e.2.2).sum), cap128 (b + (l.map fun e => saturatingMul e.1 e.2.2).sum),
      cap128 (c + (l.map fun e => e.2.1).sum)) := by
  induction l generalizing a b c with
  | nil => rfl
  | cons e l ih =>
    have hstep : weigh (cap128 a, cap128 b, cap128 c) e =
        (cap128 (a + e.2.2), cap128 (b + saturatingMul e.1 e.2.2), cap128 (c + e.2.1)) := by
      simp only [weigh, saturatingAdd_cap128]
    rw [List.foldl_cons, hstep, ih]
    simp only [List.map_cons, List.sum_cons, Nat.add_assoc]

theorem foldl_weigh_zero (l : List (ℕ × ℕ × ℕ)) : l.foldl weigh (0, 0, 0) =
    (cap128 (l.map fun e => e.2.2).sum, cap128 (l.map fun e => saturatingMul e.1 e.2.2).sum,
      cap128 (l.map fun e => e.2.1).sum) := by
  have h := foldl_weigh (l := l) 0 0 0
  simp only [Nat.zero_add] at h
  exact h

/-- Sums that fit are not capped. -/
theorem saturatingMul_sum {l : List (ℕ × ℕ)} (h : priceSum l < 2 ^ 128) :
    (l.map fun p => saturatingMul p.1 p.2).sum = priceSum l := by
  have hmul : ∀ p ∈ l, saturatingMul p.1 p.2 = p.1 * p.2 := by
    intro p hp
    have hle : p.1 * p.2 ≤ priceSum l := List.single_le_sum (fun _ _ => Nat.zero_le _) _
      (List.mem_map_of_mem (f := fun p : ℕ × ℕ => p.1 * p.2) hp)
    rw [saturatingMul]
    omega
  rw [priceSum, List.map_congr_left hmul]

theorem cap128_of_lt {n : ℕ} (h : n < 2 ^ 128) : cap128 n = n := by
  rw [cap128]
  omega

/-! ## Rounds -/

section
variable {valid valid' : List (ℕ × ℕ × ℕ)}

theorem outcome_perm (h : valid.Perm valid') : outcome valid = outcome valid' := by
  have hsums : valid.foldl weigh (0, 0, 0) = valid'.foldl weigh (0, 0, 0) := by
    rw [foldl_weigh_zero, foldl_weigh_zero, (h.map _).sum_eq, (h.map fun e => saturatingMul e.1 e.2.2).sum_eq,
      (h.map fun e => e.2.1).sum_eq]
  rw [outcome, outcome, hsums, h.isEmpty_eq, h.length_eq]

theorem median_perm {prices prices' : List ℕ} (h : prices.Perm prices') : median prices = median prices' := by
  have hsort : prices.insertionSort (· ≤ ·) = prices'.insertionSort (· ≤ ·) :=
    ((List.perm_insertionSort (· ≤ ·) prices).trans
      (h.trans (List.perm_insertionSort (· ≤ ·) prices').symm)).eq_of_pairwise'
      (List.pairwise_insertionSort (· ≤ ·) prices) (List.pairwise_insertionSort (· ≤ ·) prices')
  rw [median, median, hsort, h.length_eq]

theorem survivors_perm (h : valid.Perm valid') : (survivors valid).Perm (survivors valid') := by
  rw [survivors, survivors, median_perm (h.map _)]
  split
  · exact h.filter _
  · exact List.Perm.nil

theorem survivors_eq {m : ℕ} (h : median (valid.map fun e => e.1) = some m) :
    survivors valid = valid.filter fun e => withinCap m e.1 := by
  rw [survivors, h]

/-- The deviation that is allowed, when it is computed without saturation. -/
theorem withinCap_eq {m price : ℕ} (h : m * maxDeviationBps < 2 ^ 128) :
    withinCap m price = decide (max m price - min m price ≤ m * maxDeviationBps / 10000) := by
  have hcap : devCap m = m * maxDeviationBps / 10000 := by
    rw [devCap, saturatingMul, Nat.min_eq_left (by omega)]
  rw [withinCap, hcap]
  refine decide_eq_decide.2 ?_
  split <;> omega

end

variable {D : Type} [DecidableEq D] {H : Host D} {feeds feeds' : List (PriceFeed D × ℕ)}
  {now stalenessWindow quorum : ℕ}

/-- A round over feeds with their reputations. -/
def consensusOf (H : Host D) (feeds : List (PriceFeed D × ℕ)) (now stalenessWindow quorum : ℕ) :
    Option (ConsensusResult × ℕ × ℕ × ℕ) :=
  runConsensus H (feeds.map Prod.fst) (feeds.map Prod.snd) now stalenessWindow quorum

/-- **The order of the feeds does not matter.** -/
theorem consensusOf_perm (h : feeds.Perm feeds') :
    consensusOf H feeds now stalenessWindow quorum = consensusOf H feeds' now stalenessWindow quorum := by
  have hvalid : ((validFeeds H feeds now stalenessWindow).map scored).Perm
      ((validFeeds H feeds' now stalenessWindow).map scored) := (h.filter _).map _
  rw [consensusOf, consensusOf, runConsensus_entries, runConsensus_entries, validEntries_scored,
    validEntries_scored]
  dsimp only
  rw [hvalid.length_eq, hvalid.isEmpty_eq, (h.map Prod.fst).isEmpty_eq, outcome_perm (survivors_perm hvalid)]

/-- The feeds with their weights. -/
def weighted (l : List (PriceFeed D × ℕ)) : List (ℕ × ℕ) := l.map fun p => (p.1.price, p.2)

/-- A price is between the smallest and the largest of the feeds. -/
def Between (price : ℕ) (l : List (PriceFeed D × ℕ)) : Prop :=
  ∃ lo ∈ l, ∃ hi ∈ l, (∀ p ∈ l, lo.1.price ≤ p.1.price ∧ p.1.price ≤ hi.1.price) ∧
    lo.1.price ≤ price ∧ price ≤ hi.1.price

/-- What an accepted round says of the feeds: `m` is the median of those that are fresh and intact, `l` are those
within the deviation that is allowed, and the price is their weighted mean.  The deviation is the fraction of the
median that it is meant to be when that can be computed without saturation. -/
structure PriceOf (valid : List (PriceFeed D × ℕ)) (price count m : ℕ) (l : List (PriceFeed D × ℕ)) : Prop where
  median_eq : median (valid.map fun p => p.1.price) = some m
  survivors_eq : l = valid.filter fun p => withinCap m p.1.price
  deviation_eq : m * maxDeviationBps < 2 ^ 128 → l = valid.filter fun p =>
    decide (max m p.1.price - min m p.1.price ≤ m * maxDeviationBps / 10000)
  count_eq : count = l.length
  count_pos : 1 ≤ count
  between : priceSum (weighted l) < 2 ^ 128 → Between price l
  price_eq : priceSum (weighted l) < 2 ^ 128 → price = priceSum (weighted l) / weightSum (weighted l)

omit [DecidableEq D] in
theorem exists_extrema {l : List (PriceFeed D × ℕ)} (h : l ≠ []) :
    ∃ lo ∈ l, ∃ hi ∈ l, ∀ p ∈ l, lo.1.price ≤ p.1.price ∧ p.1.price ≤ hi.1.price := by
  induction l with
  | nil => exact absurd rfl h
  | cons p l ih =>
    rcases eq_or_ne l [] with rfl | hne
    · exact ⟨p, List.mem_cons_self, p, List.mem_cons_self, fun q hq => by
        rw [List.mem_singleton.1 hq]
        exact ⟨le_rfl, le_rfl⟩⟩
    obtain ⟨lo, hlo, hi, hhi, hbetween⟩ := ih hne
    have hmin : ∃ lo' ∈ p :: l, lo'.1.price ≤ p.1.price ∧ lo'.1.price ≤ lo.1.price := by
      rcases le_total p.1.price lo.1.price with hle | hle
      · exact ⟨p, List.mem_cons_self, le_rfl, hle⟩
      · exact ⟨lo, List.mem_cons_of_mem p hlo, hle, le_rfl⟩
    have hmax : ∃ hi' ∈ p :: l, p.1.price ≤ hi'.1.price ∧ hi.1.price ≤ hi'.1.price := by
      rcases le_total p.1.price hi.1.price with hle | hle
      · exact ⟨hi, List.mem_cons_of_mem p hhi, hle, le_rfl⟩
      · exact ⟨p, List.mem_cons_self, le_rfl, hle⟩
    obtain ⟨lo', hlo', hp, hlo⟩ := hmin
    obtain ⟨hi', hhi', hp', hhi⟩ := hmax
    refine ⟨lo', hlo', hi', hhi', fun q hq => ?_⟩
    rcases List.mem_cons.1 hq with rfl | hq
    · exact ⟨hp, hp'⟩
    · exact ⟨hlo.trans (hbetween q hq).1, (hbetween q hq).2.trans hhi⟩

theorem price_pos {p : PriceFeed D × ℕ} (h : p ∈ validFeeds H feeds now stalenessWindow) :
    1 ≤ p.1.price := by
  have hvalid := (List.mem_filter.1 h).2
  rw [PriceFeed.valid, Bool.and_eq_true, verifyFeedIntegrity] at hvalid
  by_contra hzero
  rw [if_pos (by omega)] at hvalid
  exact absurd hvalid.2 Bool.false_ne_true

omit [DecidableEq D] in
theorem outcome_scored (l : List (PriceFeed D × ℕ)) : outcome (l.map scored) =
    if l.isEmpty then (.deviationExceeded, 0, 0, 0)
    else if cap128 (weightSum (weighted l)) = 0 then (.insufficientQuorum, 0, 0, 0)
    else (.accepted,
      cap128 ((weighted l).map fun p => saturatingMul p.1 p.2).sum / cap128 (weightSum (weighted l)),
      cap128 (l.map fun p => p.1.confidence).sum / l.length, l.length) := by
  simp only [outcome, foldl_weigh_zero, weightSum, weighted, List.map_map, List.isEmpty_map, List.length_map]
  rfl

omit [DecidableEq D] in
/-- The mean of feeds whose weighted prices fit. -/
theorem mean_of_feeds {l : List (PriceFeed D × ℕ)} (hpos : ∀ p ∈ l, 1 ≤ p.1.price) (hl : l ≠ [])
    (hfits : priceSum (weighted l) < 2 ^ 128) (hweight : cap128 (weightSum (weighted l)) ≠ 0) :
    let price := cap128 ((weighted l).map fun p => saturatingMul p.1 p.2).sum / cap128 (weightSum (weighted l))
    Between price l ∧ price = priceSum (weighted l) / weightSum (weighted l) := by
  have hle : 1 * weightSum (weighted l) ≤ priceSum (weighted l) := by
    refine le_priceSum fun p hp => ?_
    obtain ⟨q, hq, rfl⟩ := List.mem_map.1 hp
    exact hpos q hq
  have hweights : cap128 (weightSum (weighted l)) = weightSum (weighted l) := cap128_of_lt (by omega)
  rw [hweights] at hweight
  simp only [hweights, saturatingMul_sum hfits, cap128_of_lt hfits, and_true]
  obtain ⟨lo, hlo, hi, hhi, hbetween⟩ := exists_extrema hl
  have hbounds : ∀ p ∈ weighted l, lo.1.price ≤ p.1 ∧ p.1 ≤ hi.1.price := by
    intro p hp
    obtain ⟨q, hq, rfl⟩ := List.mem_map.1 hp
    exact hbetween q hq
  exact ⟨lo, hlo, hi, hhi, hbetween, mean_bounds hbounds (Nat.pos_of_ne_zero hweight)⟩

/-- The accepted rounds. -/
theorem priceOf_of_accepted {price confidence count : ℕ}
    (h : consensusOf H feeds now stalenessWindow quorum = some (.accepted, price, confidence, count)) :
    ∃ m l, PriceOf (validFeeds H feeds now stalenessWindow) price count m l := by
  have hpos : ∀ p ∈ validFeeds H feeds now stalenessWindow, 1 ≤ p.1.price := fun p hp => price_pos hp
  rw [consensusOf, runConsensus_entries, validEntries_scored] at h
  dsimp only at h
  split_ifs at h with hlen hall hvalid
  · cases h
  · cases h
  generalize validFeeds H feeds now stalenessWindow = valid at *
  rw [List.isEmpty_map, List.isEmpty_iff] at hvalid
  have hprices : (valid.map scored).map (fun e => e.1) = valid.map fun p => p.1.price := List.map_map ..
  obtain ⟨m, -, hm⟩ := median_isSome (valid.map fun p => p.1.price) (by simp [hvalid])
  have hsurvivors : survivors (valid.map scored) =
      (valid.filter fun p => withinCap m p.1.price).map scored := by
    rw [survivors_eq (m := m) (hprices ▸ hm), List.filter_map]
    rfl
  rw [hsurvivors, outcome_scored] at h
  split_ifs at h with hempty hweight
  · cases h
  · cases h
  rw [List.isEmpty_iff] at hempty
  cases h
  have hmean := mean_of_feeds (fun p hp => hpos p (List.mem_of_mem_filter hp)) hempty
  refine ⟨m, _, hm, rfl, fun hfits => ?_, rfl, List.length_pos_iff.2 hempty, fun hfits => ?_, fun hfits => ?_⟩
  · simp only [withinCap_eq hfits]
  · exact (hmean hfits hweight).1
  · exact (hmean hfits hweight).2

/-- **The price of a round** is the weighted mean of the feeds near the median, whatever their order. -/
theorem price_of_round (H : Host D) (feeds : List (PriceFeed D × ℕ)) (now stalenessWindow quorum : ℕ) :
    (∀ price confidence count,
      consensusOf H feeds now stalenessWindow quorum = some (.accepted, price, confidence, count) →
      ∃ m l, PriceOf (validFeeds H feeds now stalenessWindow) price count m l) ∧
    ∀ feeds', feeds.Perm feeds' →
      consensusOf H feeds' now stalenessWindow quorum = consensusOf H feeds now stalenessWindow quorum :=
  ⟨fun _ _ _ => priceOf_of_accepted, fun _ h => (consensusOf_perm h).symm⟩

end RwaOracle
