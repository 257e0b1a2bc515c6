/-
  Soroban contracts — taking from lots in their order.

  Each lot has a size.  An amount is taken from the first lots, from the last of them in part,
  and every part has a value.

  * `fifoSum`: the sum of the values;
  * `fifoSum_size`: what can be taken;
  * `fifoSum_take`: an amount that empties the first lots is worth what they are worth;
  * `fifoSum_mono`, `fifoSum_le`: more is worth more, and a value that is less sums up to less.
-/
import Mathlib.Algebra.BigOperators.Group.List.Basic
import Mathlib.Algebra.Order.Ring.Nat

namespace Soroban

variable {α M N : Type} [AddCommMonoid M] [AddCommMonoid N] {size : α → ℕ} {value : α → ℕ → M} {l : List α} {n m : ℕ}

/-- The values of the parts of the lots that an amount is taken from. -/
def fifoSum (size : α → ℕ) (value : α → ℕ → M) : List α → ℕ → M
  | [], _ => 0
  | a :: l, n => value a (min (size a) n) + fifoSum size value l (n - size a)

theorem fifoSum_zero (h : ∀ a ∈ l, value a 0 = 0) : fifoSum size value l 0 = 0 := by
  induction l with
  | nil => rfl
  | cons a l ih =>
    rw [List.forall_mem_cons] at h
    rw [fifoSum, Nat.min_zero, Nat.zero_sub, h.1, ih h.2, add_zero]

/-- **As much is taken as there is.** -/
theorem fifoSum_size (l : List α) (n : ℕ) : fifoSum size (fun _ k => k) l n = min n (l.map size).sum := by
  induction l generalizing n with
  | nil => rw [List.map_nil, List.sum_nil, Nat.min_zero, fifoSum]
  | cons a l ih =>
    rw [fifoSum, ih, List.map_cons, List.sum_cons]
    omega

/-- **The first lots are taken completely.** -/
theorem fifoSum_take (h : ∀ a ∈ l, value a 0 = 0) (k : ℕ) :
    fifoSum size value l ((l.take k).map size).sum = ((l.take k).map fun a => value a (size a)).sum := by
  induction l generalizing k with
  | nil => rw [List.take_nil]; rfl
  | cons a l ih =>
    cases k with
    | zero =>
      rw [List.take_zero]
      exact fifoSum_zero h
    | succ k =>
      rw [List.take_succ_cons, List.map_cons, List.map_cons, List.sum_cons, List.sum_cons, fifoSum,
        Nat.min_eq_left (Nat.le_add_right _ _), Nat.add_sub_cancel_left,
        ih (fun b hb => h b (List.mem_cons_of_mem _ hb))]

/-- **More is worth more.** -/
theorem fifoSum_mono [PartialOrder M] [IsOrderedAddMonoid M] (h : ∀ a ∈ l, Monotone (value a)) (hle : n ≤ m) :
    fifoSum size value l n ≤ fifoSum size value l m := by
  induction l generalizing n m with
  | nil => exact le_rfl
  | cons a l ih =>
    rw [List.forall_mem_cons] at h
    rw [fifoSum, fifoSum]
    exact add_le_add (h.1 (min_le_min_left _ hle)) (ih h.2 (Nat.sub_le_sub_right hle _))

/-- **A value that is less sums up to less.** -/
theorem fifoSum_le [PartialOrder N] [IsOrderedAddMonoid N] {value' : α → ℕ → N} (f : M →+ N)
    (h : ∀ a ∈ l, ∀ k ≤ size a, f (value a k) ≤ value' a k) (n : ℕ) :
    f (fifoSum size value l n) ≤ fifoSum size value' l n := by
  induction l generalizing n with
  | nil => rw [fifoSum, map_zero, fifoSum]
  | cons a l ih =>
    rw [List.forall_mem_cons] at h
    rw [fifoSum, fifoSum, map_add]
    exact add_le_add (h.1 _ (Nat.min_le_left _ _)) (ih h.2 _)

end Soroban
