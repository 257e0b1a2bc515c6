/-
  Soroban contracts — what the entries of a store add up to.

  A store has entries for finitely many keys only, which no type says.
  `SumsTo g n` says that `g` vanishes outside finitely many keys and that its
  values there add up to `n`; the keys may be chosen freely (`sumsTo_iff`).

  * `SumsTo.change`: one value changes, and the sum with it;
  * `SumsTo.mono`, `SumsTo.le`: a sum dominates smaller sums, and each value;
  * `SumsTo.shares`: shares in a sum that are rounded down;
  * a set of keys is counted by `Set.encard`, and `stored_update` is the set of
    the keys of a store after a write.
-/
import Mathlib.Algebra.BigOperators.Group.Finset.Piecewise
import Mathlib.Algebra.BigOperators.Ring.Finset
import Mathlib.Algebra.Order.BigOperators.Group.Finset
import Mathlib.Data.Set.Card

namespace Soroban

variable {K V : Type}

/-- `g` is zero outside finitely many keys, and adds up to `n`. -/
def SumsTo (g : K → ℕ) (n : ℕ) : Prop := ∃ F : Finset K, (∀ k, k ∉ F → g k = 0) ∧ ∑ k ∈ F, g k = n

section
variable {g h : K → ℕ} {n m : ℕ} {k : K}

/-- The sum may be taken over any finite set outside which `g` is zero. -/
theorem sumsTo_iff {F : Finset K} (hF : ∀ k, k ∉ F → g k = 0) : SumsTo g n ↔ ∑ k ∈ F, g k = n := by
  classical
  constructor
  · rintro ⟨G, hG, rfl⟩
    have hF' : ∑ k ∈ F ∪ G, g k = ∑ k ∈ F, g k :=
      (Finset.sum_subset Finset.subset_union_left fun k _ hk => hF k hk).symm
    have hG' : ∑ k ∈ F ∪ G, g k = ∑ k ∈ G, g k :=
      (Finset.sum_subset Finset.subset_union_right fun k _ hk => hG k hk).symm
    rw [← hF', hG']
  · intro hs
    exact ⟨F, hF, hs⟩

theorem SumsTo.unique (hs : SumsTo g n) (hs' : SumsTo g m) : n = m := by
  obtain ⟨F, hF, rfl⟩ := hs
  exact (sumsTo_iff hF).1 hs'

theorem sumsTo_zero (h : ∀ k, g k = 0) : SumsTo g 0 := ⟨∅, fun k _ => h k, Finset.sum_empty⟩

/-- One value is not zero. -/
theorem sumsTo_single (h : ∀ j, j ≠ k → g j = 0) : SumsTo g (g k) := by
  refine ⟨{k}, fun j hj => h j ?_, Finset.sum_singleton ..⟩
  rintro rfl
  exact hj (Finset.mem_singleton_self _)

theorem SumsTo.congr (hs : SumsTo g n) (heq : ∀ k, g k = h k) : SumsTo h n := by
  obtain rfl : g = h := funext heq
  exact hs

/-- **One value changes.** -/
theorem SumsTo.change (hs : SumsTo g n) (hne : ∀ j, j ≠ k → h j = g j) :
    SumsTo h m ↔ m + g k = n + h k := by
  classical
  obtain ⟨F, hF, rfl⟩ := hs
  have hg : ∀ j, j ∉ insert k F → g j = 0 := fun j hj => hF j fun hm => hj (Finset.mem_insert_of_mem hm)
  have hh : ∀ j, j ∉ insert k F → h j = 0 := by
    intro j hj
    rw [hne j fun e => hj (e ▸ Finset.mem_insert_self k F), hg j hj]
  have hgsum : ∑ j ∈ F, g j = ∑ j ∈ insert k F, g j :=
    Finset.sum_subset (Finset.subset_insert k F) fun j _ hj => hF j hj
  have hrest : ∑ j ∈ (insert k F).erase k, h j = ∑ j ∈ (insert k F).erase k, g j :=
    Finset.sum_congr rfl fun j hj => hne j (Finset.ne_of_mem_erase hj)
  have hk : k ∈ insert k F := Finset.mem_insert_self k F
  rw [sumsTo_iff hh, hgsum, ← Finset.add_sum_erase _ g hk, ← Finset.add_sum_erase _ h hk, hrest]
  omega

/-- A value is at most the sum. -/
theorem SumsTo.le (hs : SumsTo g n) : g k ≤ n := by
  obtain ⟨F, hF, rfl⟩ := hs
  by_cases hk : k ∈ F
  · exact Finset.single_le_sum (fun _ _ => Nat.zero_le _) hk
  · rw [hF k hk]; exact Nat.zero_le _

theorem SumsTo.mono (hs : SumsTo g n) (hs' : SumsTo h m) (hle : ∀ k, g k ≤ h k) : n ≤ m := by
  obtain ⟨F, hF, rfl⟩ := hs'
  have hg : ∀ k, k ∉ F → g k = 0 := fun k hk => Nat.le_zero.1 ((hle k).trans (hF k hk).le)
  rw [← (sumsTo_iff hg).1 hs]
  exact Finset.sum_le_sum fun k _ => hle k

theorem SumsTo.add (hs : SumsTo g n) (hs' : SumsTo h m) : SumsTo (fun k => g k + h k) (n + m) := by
  classical
  obtain ⟨F, hF, rfl⟩ := hs
  obtain ⟨G, hG, rfl⟩ := hs'
  have hFG : ∀ k, k ∉ F ∪ G → g k = 0 ∧ h k = 0 := by
    intro k hk
    rw [Finset.mem_union, not_or] at hk
    exact ⟨hF k hk.1, hG k hk.2⟩
  have hg : ∑ k ∈ F ∪ G, g k = ∑ k ∈ F, g k :=
    (sumsTo_iff fun k hk => (hFG k hk).1).1 ⟨F, hF, rfl⟩
  have hh : ∑ k ∈ F ∪ G, h k = ∑ k ∈ G, h k :=
    (sumsTo_iff fun k hk => (hFG k hk).2).1 ⟨G, hG, rfl⟩
  refine ⟨F ∪ G, fun k hk => ?_, ?_⟩
  · simp only [(hFG k hk).1, (hFG k hk).2]
  · rw [Finset.sum_add_distrib, hg, hh]

/-- **Shares that are rounded down do not exceed the whole**, `m` parts of `n`. -/
theorem SumsTo.shares (hs : SumsTo g n) (m : ℕ) : ∃ l ≤ m, SumsTo (fun k => g k * m / n) l := by
  obtain ⟨F, hF, hsum⟩ := hs
  have hzero : ∀ k, k ∉ F → g k * m / n = 0 := by
    intro k hk
    rw [hF k hk, Nat.zero_mul, Nat.zero_div]
  refine ⟨∑ k ∈ F, g k * m / n, ?_, F, hzero, rfl⟩
  rcases Nat.eq_zero_or_pos n with rfl | hn
  · simp
  · refine Nat.le_of_mul_le_mul_right ?_ hn
    calc (∑ k ∈ F, g k * m / n) * n = ∑ k ∈ F, g k * m / n * n := Finset.sum_mul ..
      _ ≤ ∑ k ∈ F, g k * m := Finset.sum_le_sum fun k _ => Nat.div_mul_le_self ..
      _ = m * n := by rw [← Finset.sum_mul, hsum, Nat.mul_comm]

end

/-! ## Stored keys -/

/-- The keys with an entry. -/
def stored (m : K → Option V) : Set K := {k | (m k).isSome}

@[simp] theorem mem_stored {m : K → Option V} {k : K} : k ∈ stored m ↔ (m k).isSome := Iff.rfl

theorem stored_update [DecidableEq K] {m : K → Option V} {k : K} {v : V} :
    stored (Function.update m k (some v)) = insert k (stored m) := by
  ext j
  rw [Set.mem_insert_iff, mem_stored, mem_stored]
  by_cases h : j = k
  · subst h; simp
  · rw [Function.update_of_ne h]; simp [h]

end Soroban
