/-
  Soroban contracts — counting by key.

  Contracts without hash maps count in a list of pairs: `incrementCount` bumps
  the count of a key, and appends a key it has not seen.

  * `countOf` reads a count, and `countOf_incrementCount` says how a bump changes it;
  * `Tallied bound base keys counts`: the keys that have a bound have been
    counted, and none exceeds its bound on top of `base`.
-/
import Mathlib.Data.List.Basic

namespace Soroban

variable {κ : Type} [DecidableEq κ]

/-- Increments the count of `k`, and returns the counts with the new count.  A
    count is at most the number of calls, so it stays a `u32`. -/
def incrementCount : List (κ × ℕ) → κ → List (κ × ℕ) × ℕ
  | [], k => ([(k, 1)], 1)
  | (k', n) :: counts, k =>
    if k' = k then ((k, n + 1) :: counts, n + 1)
    else ((k', n) :: (incrementCount counts k).1, (incrementCount counts k).2)

/-- The count of `k`, 0 when it is not listed. -/
def countOf : List (κ × ℕ) → κ → ℕ
  | [], _ => 0
  | (k', n) :: counts, k => if k' = k then n else countOf counts k

theorem countOf_incrementCount (counts : List (κ × ℕ)) (k k' : κ) :
    countOf (incrementCount counts k).1 k' = countOf counts k' + if k = k' then 1 else 0 := by
  induction counts with
  | nil => by_cases h : k = k' <;> simp [incrementCount, countOf, h]
  | cons p counts ih =>
    obtain ⟨j, n⟩ := p
    by_cases hj : j = k
    · subst hj
      by_cases h : j = k' <;> simp [incrementCount, countOf, h]
    · rw [incrementCount, if_neg hj, countOf, countOf]
      by_cases h : j = k'
      · subst h; simp [Ne.symm hj]
      · simp only [if_neg h]; exact ih

/-- The count that is returned is the new one. -/
theorem incrementCount_snd (counts : List (κ × ℕ)) (k : κ) :
    (incrementCount counts k).2 = countOf counts k + 1 := by
  induction counts with
  | nil => rfl
  | cons p counts ih =>
    obtain ⟨j, n⟩ := p
    by_cases hj : j = k
    · simp [incrementCount, countOf, hj]
    · simp [incrementCount, countOf, hj, ih]

/-! ## Bounded counts -/

/-- The keys with a bound are counted, and keep to it on top of `base`. -/
def Tallied (bound : κ → Option ℕ) (base : κ → ℕ) (keys : List κ) (counts : List (κ × ℕ)) : Prop :=
  ∀ k l, bound k = some l → countOf counts k = keys.count k ∧ (k ∈ keys → base k + keys.count k ≤ l)

namespace Tallied
variable {bound : κ → Option ℕ} {base : κ → ℕ} {keys : List κ} {counts : List (κ × ℕ)} {k : κ}

theorem nil : Tallied bound base [] [] := fun _ _ _ => ⟨rfl, fun h => by cases h⟩

/-- A key without a bound is not counted. -/
theorem skip (h : Tallied bound base keys counts) (hk : bound k = none) :
    Tallied bound base (keys ++ [k]) counts := by
  intro j l hj
  have hne : j ≠ k := fun e => by rw [e, hk] at hj; cases hj
  obtain ⟨hc, hl⟩ := h j l hj
  have hcount : (keys ++ [k]).count j = keys.count j := by
    rw [List.count_append, List.count_singleton]; simp [Ne.symm hne]
  refine ⟨hcount ▸ hc, fun hmem => hcount ▸ hl ?_⟩
  simpa [hne] using hmem

/-- A key with a bound is counted after the check against it. -/
theorem increment (h : Tallied bound base keys counts) {b : ℕ} (hk : bound k = some b)
    (hle : base k + (countOf counts k + 1) ≤ b) :
    Tallied bound base (keys ++ [k]) (incrementCount counts k).1 := by
  intro j l hj
  obtain ⟨hc, hl⟩ := h j l hj
  rw [countOf_incrementCount, hc, List.count_append, List.count_singleton]
  by_cases hkj : k = j
  · subst hkj
    obtain rfl : b = l := Option.some.inj (hk.symm.trans hj)
    rw [hc] at hle
    simp only [if_pos, beq_self_eq_true]
    exact ⟨trivial, fun _ => hle⟩
  · have hne : j ≠ k := Ne.symm hkj
    simp only [hkj, if_false, beq_iff_eq, Nat.add_zero, true_and]
    exact fun hmem => hl (by simpa [hne] using hmem)

end Tallied

end Soroban
