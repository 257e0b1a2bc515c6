/-
  Interpolation over a commutative ring.

  The points need not be those of a field: it is enough that their differences are units (`Apart`).  A
  polynomial of degree at most the number of points is off by its last coefficient (`sum_basis_eval`).
-/
import Mathlib.Algebra.Polynomial.Roots
import Mathlib.RingTheory.Coprime.Lemmas
import Mathlib.Algebra.Polynomial.BigOperators
import Mathlib.Algebra.Polynomial.Eval.SMul

namespace Interpolation

open Polynomial

variable {R ι : Type} [CommRing R] {S : Finset ι} {x : ι → R}

/-- The differences of the points are units. -/
def Apart (S : Finset ι) (x : ι → R) : Prop := ∀ i ∈ S, ∀ j ∈ S, i ≠ j → IsUnit (x i - x j)

/-- A polynomial with more roots than its degree. -/
theorem Apart.eq_zero (h : Apart S x) {f : R[X]} (hdeg : f.degree < S.card)
    (hroot : ∀ i ∈ S, f.eval (x i) = 0) : f = 0 := by
  nontriviality R
  have hdvd : ∏ i ∈ S, (X - C (x i)) ∣ f := by
    refine Finset.prod_dvd_of_coprime (fun i hi j hj hij => ?_) fun i hi => ?_
    · exact isCoprime_X_sub_C_of_isUnit_sub (h i hi j hj hij)
    · exact dvd_iff_isRoot.2 (hroot i hi)
  by_contra hne
  refine (monic_prod_X_sub_C x S).not_dvd_of_degree_lt hne ?_ hdvd
  rwa [degree_eq_natDegree (monic_prod_X_sub_C x S).ne_zero, natDegree_finsetProd_X_sub_C_eq_card]

/-- Two polynomials of lower degree than there are points, with the same values there. -/
theorem Apart.eq_of_eval (h : Apart S x) {f g : R[X]} (hf : f.degree < S.card) (hg : g.degree < S.card)
    (heval : ∀ i ∈ S, f.eval (x i) = g.eval (x i)) : f = g := by
  refine sub_eq_zero.1 (h.eq_zero ?_ fun i hi => ?_)
  · exact (degree_sub_le f g).trans_lt (max_lt hf hg)
  · rw [eval_sub, heval i hi, sub_self]

/-- What is left of a polynomial without its last coefficient. -/
theorem degree_sub_prod_lt [Nontrivial R] {f : R[X]} (hf : f.natDegree ≤ S.card) :
    (f - C (f.coeff S.card) * ∏ i ∈ S, (X - C (x i))).degree < S.card := by
  refine (degree_lt_iff_coeff_zero _ _).2 fun m hm => ?_
  have hmonic := monic_prod_X_sub_C x S
  have hcard : (∏ i ∈ S, (X - C (x i))).natDegree = S.card := natDegree_finsetProd_X_sub_C_eq_card S x
  rw [coeff_sub, coeff_C_mul]
  rcases hm.eq_or_lt with rfl | hlt
  · have hlead : (∏ i ∈ S, (X - C (x i))).coeff S.card = 1 := by
      rw [← hcard]
      exact hmonic.coeff_natDegree
    rw [hlead, mul_one, sub_self]
  · rw [coeff_eq_zero_of_natDegree_lt (hf.trans_lt hlt), coeff_eq_zero_of_natDegree_lt (hcard.trans_lt hlt),
      mul_zero, sub_zero]

variable [DecidableEq ι]

/-- The polynomial that vanishes at all points but one. -/
noncomputable def basis (S : Finset ι) (x : ι → R) (i : ι) : R[X] := ∏ j ∈ S.erase i, (X - C (x j))

theorem eval_basis (i : ι) (y : R) : (basis S x i).eval y = ∏ j ∈ S.erase i, (y - x j) := by
  rw [basis, eval_prod]
  simp only [eval_sub, eval_X, eval_C]

theorem eval_basis_of_ne {i k : ι} (hk : k ∈ S) (hne : i ≠ k) : (basis S x i).eval (x k) = 0 := by
  rw [eval_basis]
  exact Finset.prod_eq_zero (Finset.mem_erase.2 ⟨hne.symm, hk⟩) (sub_self _)

theorem degree_basis_lt [Nontrivial R] {i : ι} (hi : i ∈ S) : (basis S x i).degree < S.card := by
  rw [basis, degree_eq_natDegree (monic_prod_X_sub_C x _).ne_zero, natDegree_finsetProd_X_sub_C_eq_card,
    Nat.cast_lt]
  exact Finset.card_erase_lt_of_mem hi

/-- **Interpolation.**  The values at the points give the value at `y`, up to the last coefficient. -/
theorem Apart.sum_basis_eval [Nontrivial R] (h : Apart S x) {inv : ι → R}
    (hinv : ∀ i ∈ S, (∏ j ∈ S.erase i, (x i - x j)) * inv i = 1) {f : R[X]} (hf : f.natDegree ≤ S.card)
    (y : R) :
    ∑ i ∈ S, f.eval (x i) * ((∏ j ∈ S.erase i, (y - x j)) * inv i) =
      f.eval y - f.coeff S.card * ∏ i ∈ S, (y - x i) := by
  have hsum : ∑ i ∈ S, (f.eval (x i) * inv i) • basis S x i =
      f - C (f.coeff S.card) * ∏ i ∈ S, (X - C (x i)) := by
    refine h.eq_of_eval ?_ (degree_sub_prod_lt hf) fun k hk => ?_
    · refine (degree_sum_le _ _).trans_lt ((Finset.sup_lt_iff (WithBot.bot_lt_coe _)).2 fun i hi => ?_)
      exact (degree_smul_le _ _).trans_lt (degree_basis_lt hi)
    · rw [eval_finsetSum, Finset.sum_eq_single k]
      · have hzero : (∏ i ∈ S, (X - C (x i))).eval (x k) = 0 := by
          rw [eval_prod]
          exact Finset.prod_eq_zero hk (by simp)
        rw [eval_smul, smul_eq_mul, eval_basis, mul_assoc, mul_comm (inv k), hinv k hk, mul_one, eval_sub,
          eval_mul, hzero, mul_zero, sub_zero]
      · intro i hi hne
        rw [eval_smul, eval_basis_of_ne hk hne, smul_zero]
      · exact fun hk' => absurd hk hk'
  have hy := congrArg (eval y) hsum
  rw [eval_finsetSum, eval_sub, eval_mul, eval_C, eval_prod] at hy
  simp only [eval_smul, smul_eq_mul, eval_C, eval_basis, eval_sub, eval_X] at hy
  rw [← hy]
  refine Finset.sum_congr rfl fun i _ => ?_
  rw [mul_comm (∏ j ∈ S.erase i, (y - x j)), mul_assoc]

end Interpolation
