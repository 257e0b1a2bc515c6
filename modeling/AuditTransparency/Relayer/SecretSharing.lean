/-
  Mpc — threshold secret sharing (`bridge/relayer/mpc.ts`).

  A `bigint` is an integer whose division truncates.  `fieldPrime` is even, and a polynomial has one
  coefficient more than the threshold.

  * `secretChunks_eq`: a secret of at most 32 bytes is shared in one piece;
  * `cast_reconstructSecret`: what the chosen shares give, if the differences of their indices are units;
  * `reconstructSecret_iff`: when that is the secret.
-/
import AuditTransparency.Relayer.Interpolation
import Mathlib.Data.Nat.Digits.Lemmas
import Mathlib.Data.ZMod.Units
import Mathlib.Tactic.Ring

namespace Mpc

/-! ## Functions -/

/-- Not a prime: it is even. -/
def fieldPrime : ℤ := 2 ^ 256 - 1 * 2 ^ 64 * 9

/-- `secret.toString(16).padStart(64, "0")`, as the values of the digits. -/
def hexDigits (secret : ℕ) : List ℕ :=
  (if secret = 0 then [0] else (Nat.digits 16 secret).reverse).leftpad 64 0

/-- `Buffer.from(hex, "hex")` -/
def bytesOf : List ℕ → List ℕ
  | a :: b :: l => (16 * a + b) :: bytesOf l
  | _ => []

/-- `BigInt("0x" + chunk.toString("hex"))` -/
def bigIntOf (chunk : List ℕ) : ℕ := chunk.foldl (fun n b => 256 * n + b) 0

/-- The first loop of `splitSecret`. -/
def secretChunks (secret : ℕ) : List ℕ :=
  let secretBytes := bytesOf (hexDigits secret)
  (List.range ((secretBytes.length + 31) / 32)).map fun k => bigIntOf ((secretBytes.drop (32 * k)).take 32)

/-- The digest is a hexadecimal number of 64 digits. -/
def generateCoefficients (sha256 : String → BitVec 256) (secret degree : ℕ) : List ℤ :=
  (secret : ℤ) :: (List.range' 1 degree).map fun i => ((sha256 s!"{secret}:{i}").toNat : ℤ)

def evaluatePolynomial (coeffs : List ℤ) (x : ℤ) : ℤ :=
  coeffs.foldr (fun c result => (result * x + c).tmod fieldPrime) 0

def splitSecret (sha256 : String → BitVec 256) (secret threshold totalShares : ℕ) : List ℤ :=
  (List.range totalShares).map fun (i : ℕ) => (secretChunks secret).foldl (fun share chunk =>
    (share + evaluatePolynomial (generateCoefficients sha256 chunk threshold) (i + 1)).tmod fieldPrime) 0

/-- `((a % p) + p) % p` -/
def wrap (a : ℤ) : ℤ := (a.tmod fieldPrime + fieldPrime).tmod fieldPrime

/-- The loop of `modInverse`. -/
def euclid (oldR r oldS s : ℤ) : ℤ :=
  if r = 0 then oldS else euclid r (oldR - oldR.tdiv r * r) s (oldS - oldR.tdiv r * s)
termination_by r.natAbs
decreasing_by
  rw [Int.mul_comm, ← Int.tmod_def, Int.natAbs_tmod]
  exact Nat.mod_lt _ (Int.natAbs_pos.2 ‹_›)

def modInverse (a : ℤ) : ℤ := wrap (euclid (wrap a) fieldPrime 1 0)

structure Share where
  index : ℕ
  value : ℤ

/-- The inner loop of `reconstructSecret`: the numerator and the denominator for the share at position `i`. -/
def basisAt (shares : List Share) (i : ℕ) (xi : ℤ) : ℤ × ℤ :=
  shares.zipIdx.foldl (fun q p =>
    if i = p.2 then q
    else (wrap (q.1 * (fieldPrime - p.1.index)),
      wrap (q.2 * (xi - p.1.index + fieldPrime).tmod fieldPrime))) (1, 1)

def reconstructSecret (shares : List Share) : ℤ :=
  (shares.zipIdx.foldl (fun secret p =>
    let q := basisAt shares p.2 p.1.index
    let lagrange := (q.1 * modInverse q.2).tmod fieldPrime
    wrap (secret + p.1.value * lagrange)) 0 + fieldPrime).tmod fieldPrime

/-- The denominators that `reconstructSecret` inverts. -/
def denominators (shares : List Share) : List ℤ :=
  shares.zipIdx.map fun p => (basisAt shares p.2 p.1.index).2

/-! ## The pieces of a secret -/

theorem bigIntOf_bytesOf (k : ℕ) {l : List ℕ} (h : l.length = 2 * k) (n : ℕ) :
    (bytesOf l).foldl (fun n b => 256 * n + b) n = l.foldl (fun n d => 16 * n + d) n ∧
      (bytesOf l).length = k := by
  induction k generalizing l n with
  | zero =>
    obtain rfl := List.length_eq_zero_iff.1 h
    exact ⟨rfl, rfl⟩
  | succ k ih =>
    match l, h with
    | a :: b :: l, h =>
      have hl : l.length = 2 * k := by simpa [Nat.mul_succ] using h
      obtain ⟨hfold, hlen⟩ := ih hl (256 * n + (16 * a + b))
      have hstep : 256 * n + (16 * a + b) = 16 * (16 * n + a) + b := by ring
      rw [bytesOf, List.foldl_cons, hfold, hstep, List.length_cons, hlen]
      exact ⟨rfl, rfl⟩

theorem foldl_replicate_zero (m : ℕ) : (List.replicate m 0).foldl (fun n d => 16 * n + d) 0 = 0 := by
  induction m with
  | zero => rfl
  | succ m ih =>
    rw [List.replicate_succ, List.foldl_cons]
    exact ih

theorem hexDigits_spec {secret : ℕ} (h : secret < 2 ^ 256) :
    (hexDigits secret).length = 64 ∧ (hexDigits secret).foldl (fun n d => 16 * n + d) 0 = secret := by
  by_cases h0 : secret = 0
  · subst h0
    decide
  · have hlen : (Nat.digits 16 secret).length ≤ 64 :=
      (Nat.digits_length_le_iff (by decide) secret).2 (h.trans_eq (by norm_num))
    rw [hexDigits, if_neg h0, List.leftpad]
    constructor
    · rw [List.length_append, List.length_replicate, List.length_reverse]
      omega
    · rw [List.foldl_append, foldl_replicate_zero, List.foldl_reverse]
      conv_rhs => rw [← Nat.ofDigits_digits 16 secret]
      rw [Nat.ofDigits_eq_foldr]
      simp only [Nat.cast_id, Nat.add_comm]

/-- A secret of at most 32 bytes is one chunk. -/
theorem secretChunks_eq {secret : ℕ} (h : secret < 2 ^ 256) : secretChunks secret = [secret] := by
  obtain ⟨hlen, hval⟩ := hexDigits_spec h
  obtain ⟨hfold, hbytes⟩ := bigIntOf_bytesOf 32 hlen 0
  rw [secretChunks, hbytes, show List.range ((32 + 31) / 32) = [0] from rfl, List.map_singleton, Nat.mul_zero,
    List.drop_zero, List.take_of_length_le hbytes.le, bigIntOf, hfold, hval]

/-! ## Residues -/

/-- `fieldPrime`, as a number. -/
def modulus : ℕ := 2 ^ 256 - 9 * 2 ^ 64

/-- What the numbers of `reconstructSecret` stand for. -/
abbrev Residue := ZMod modulus

theorem fieldPrime_eq : fieldPrime = (modulus : ℤ) := by decide

theorem fieldPrime_pos : 0 < fieldPrime := by decide

instance : Fact (1 < modulus) := ⟨by decide⟩

@[simp]
theorem cast_fieldPrime : (fieldPrime : Residue) = 0 := by
  rw [fieldPrime_eq, Int.cast_natCast, ZMod.natCast_self]

@[simp]
theorem cast_tmod (a : ℤ) : ((a.tmod fieldPrime : ℤ) : Residue) = a := by
  rw [Int.tmod_def, Int.cast_sub, Int.cast_mul, cast_fieldPrime, zero_mul, sub_zero]

@[simp]
theorem cast_wrap (a : ℤ) : (wrap a : Residue) = a := by
  rw [wrap, cast_tmod, Int.cast_add, cast_tmod, cast_fieldPrime, add_zero]

theorem wrap_eq (a : ℤ) : wrap a = a % fieldPrime := by
  have hlt := Int.lt_tmod_of_pos a fieldPrime_pos
  rw [wrap, Int.tmod_eq_emod_of_nonneg (by omega), Int.add_emod_right, Int.tmod_def, Int.sub_mul_emod_self_left]

theorem wrap_nonneg (a : ℤ) : 0 ≤ wrap a := by
  rw [wrap_eq]
  exact Int.emod_nonneg _ fieldPrime_pos.ne'

/-- Reduced numbers with the same residue. -/
theorem eq_of_cast_eq {a b : ℤ} (ha : 0 ≤ a) (ha' : a < fieldPrime) (hb : 0 ≤ b) (hb' : b < fieldPrime)
    (h : (a : Residue) = b) : a = b := by
  rw [ZMod.intCast_eq_intCast_iff', ← fieldPrime_eq, Int.emod_eq_of_lt ha ha', Int.emod_eq_of_lt hb hb'] at h
  exact h

theorem isUnit_cast_iff {a : ℤ} : IsUnit (a : Residue) ↔ IsCoprime a fieldPrime := by
  rw [ZMod.coe_int_isUnit_iff_isCoprime, ← fieldPrime_eq, isCoprime_comm]

/-! ## Inverses -/

/-- The coefficient of the loop belongs to the greatest common divisor. -/
theorem cast_euclid {a : Residue} (n : ℕ) {oldR r oldS s : ℤ} (hn : r.natAbs ≤ n) (hold : 0 ≤ oldR)
    (hr : 0 ≤ r) (holdS : (oldR : Residue) = a * oldS) (hs : (r : Residue) = a * s) :
    ((oldR.gcd r : ℕ) : Residue) = a * euclid oldR r oldS s := by
  induction n generalizing oldR r oldS s with
  | zero =>
    obtain rfl := Int.natAbs_eq_zero.1 (Nat.le_zero.1 hn)
    rw [euclid, if_pos rfl, ← holdS, Int.gcd_zero_right, ← Int.cast_natCast, Int.natAbs_of_nonneg hold]
  | succ n ih =>
    rw [euclid]
    split_ifs with h0
    · subst h0
      rw [← holdS, Int.gcd_zero_right, ← Int.cast_natCast, Int.natAbs_of_nonneg hold]
    · have hpos : 0 < r := lt_of_le_of_ne hr (Ne.symm h0)
      have hmod : oldR - oldR.tdiv r * r = oldR % r := by
        rw [Int.tdiv_eq_ediv_of_nonneg hold, Int.mul_comm, Int.emod_def]
      have hlt := Int.emod_lt_of_pos oldR hpos
      have hnonneg := Int.emod_nonneg oldR h0
      rw [hmod, ← ih (by omega) hr hnonneg hs ?_]
      · rw [← Int.gcd_emod, Int.gcd_comm]
      · rw [← hmod, Int.cast_sub, Int.cast_mul, holdS, hs, Int.cast_sub, Int.cast_mul]
        ring

/-- **`modInverse`** inverts what is invertible. -/
theorem cast_modInverse {a : ℤ} (h : IsUnit (a : Residue)) : (modInverse a : Residue) = (a : Residue)⁻¹ := by
  have hgcd : (wrap a).gcd fieldPrime = 1 := by
    rw [wrap_eq, Int.gcd_emod]
    exact Int.isCoprime_iff_gcd_eq_one.1 (isUnit_cast_iff.1 h)
  have heuclid := cast_euclid (a := (a : Residue)) _ le_rfl (wrap_nonneg a) fieldPrime_pos.le
    (show ((wrap a : ℤ) : Residue) = a * ((1 : ℤ) : Residue) by simp)
    (show ((fieldPrime : ℤ) : Residue) = a * ((0 : ℤ) : Residue) by simp)
  rw [hgcd, Nat.cast_one] at heuclid
  rw [modInverse, cast_wrap, ZMod.inv_eq_of_mul_eq_one _ _ _ heuclid.symm]

/-! ## Polynomials -/

open Polynomial in
/-- The polynomial with these coefficients. -/
noncomputable def polynomialOf : List ℤ → Polynomial Residue
  | [] => 0
  | c :: coeffs => polynomialOf coeffs * X + C (c : Residue)

theorem cast_evaluatePolynomial (coeffs : List ℤ) (x : ℤ) :
    (evaluatePolynomial coeffs x : Residue) = (polynomialOf coeffs).eval (x : Residue) := by
  induction coeffs with
  | nil => simp [evaluatePolynomial, polynomialOf]
  | cons c coeffs ih =>
    rw [evaluatePolynomial] at ih
    rw [evaluatePolynomial, polynomialOf, List.foldr_cons, cast_tmod, Int.cast_add, Int.cast_mul, ih,
      Polynomial.eval_add, Polynomial.eval_mul, Polynomial.eval_X, Polynomial.eval_C]

theorem coeff_polynomialOf (coeffs : List ℤ) (m : ℕ) :
    (polynomialOf coeffs).coeff m = (coeffs.getD m 0 : ℤ) := by
  induction coeffs generalizing m with
  | nil => simp [polynomialOf]
  | cons c coeffs ih =>
    rw [polynomialOf, Polynomial.coeff_add]
    cases m with
    | zero => rw [Polynomial.mul_coeff_zero, Polynomial.coeff_X_zero, mul_zero, zero_add,
        Polynomial.coeff_C_zero, List.getD_cons_zero]
    | succ m => rw [Polynomial.coeff_mul_X, Polynomial.coeff_C_succ, add_zero, ih, List.getD_cons_succ]

theorem natDegree_polynomialOf {coeffs : List ℤ} {n : ℕ} (h : coeffs.length ≤ n + 1) :
    (polynomialOf coeffs).natDegree ≤ n := by
  refine Polynomial.natDegree_le_iff_coeff_eq_zero.2 fun m hm => ?_
  rw [coeff_polynomialOf, List.getD_eq_getElem?_getD, List.getElem?_eq_none (by omega), Option.getD_none,
    Int.cast_zero]

/-! ## Loops -/

/-- A loop that leaves out one position. -/
theorem foldl_skip {α β : Type} (f : β → α → β) (l : List α) (i n : ℕ) (b : β) :
    (l.zipIdx n).foldl (fun b p => if n + i = p.2 then b else f b p.1) b = (l.eraseIdx i).foldl f b := by
  induction l generalizing i n b with
  | nil => rfl
  | cons a l ih =>
    rw [List.zipIdx_cons, List.foldl_cons]
    cases i with
    | zero =>
      have hrest : (l.zipIdx (n + 1)).foldl (fun b p => if n + 0 = p.2 then b else f b p.1) b =
          (l.zipIdx (n + 1)).foldl (fun b p => f b p.1) b := by
        refine List.foldl_ext _ _ _ fun b p hp => if_neg ?_
        have hle := List.le_snd_of_mem_zipIdx hp
        omega
      rw [if_pos (Nat.add_zero n), hrest, List.eraseIdx_cons_zero, ← List.foldl_map (f := Prod.fst),
        List.zipIdx_map_fst]
    | succ i =>
      rw [if_neg (by omega), List.eraseIdx_cons_succ, List.foldl_cons, ← ih i (n + 1)]
      simp only [Nat.add_assoc, Nat.add_comm 1 i]

/-- The products that `basisAt` computes. -/
theorem cast_basisAt (shares : List Share) (i : ℕ) (xi : ℤ) :
    ((basisAt shares i xi).1 : Residue) =
      ((shares.eraseIdx i).map fun share => (0 : Residue) - share.index).prod ∧
    ((basisAt shares i xi).2 : Residue) =
      ((shares.eraseIdx i).map fun share => (xi : Residue) - share.index).prod := by
  have hskip := foldl_skip (fun (q : ℤ × ℤ) (share : Share) => (wrap (q.1 * (fieldPrime - share.index)),
    wrap (q.2 * (xi - share.index + fieldPrime).tmod fieldPrime))) shares i 0 (1, 1)
  simp only [Nat.zero_add] at hskip
  rw [basisAt, hskip]
  have hfold : ∀ (l : List Share) (q : ℤ × ℤ),
      ((l.foldl (fun (q : ℤ × ℤ) (share : Share) => (wrap (q.1 * (fieldPrime - share.index)),
        wrap (q.2 * (xi - share.index + fieldPrime).tmod fieldPrime))) q).1 : Residue) =
        q.1 * (l.map fun share => (0 : Residue) - share.index).prod ∧
      ((l.foldl (fun (q : ℤ × ℤ) (share : Share) => (wrap (q.1 * (fieldPrime - share.index)),
        wrap (q.2 * (xi - share.index + fieldPrime).tmod fieldPrime))) q).2 : Residue) =
        q.2 * (l.map fun share => (xi : Residue) - share.index).prod := by
    intro l
    induction l with
    | nil => simp
    | cons share l ih =>
      intro q
      rw [List.foldl_cons, (ih _).1, (ih _).2]
      simp [mul_assoc]
  simpa using hfold (shares.eraseIdx i) (1, 1)

/-- The sum that `reconstructSecret` computes. -/
theorem cast_sum (shares : List Share) : (reconstructSecret shares : Residue) =
    (shares.zipIdx.map fun p => (p.1.value : Residue) * ((basisAt shares p.2 p.1.index).1 *
      modInverse (basisAt shares p.2 p.1.index).2)).sum := by
  have hfold : ∀ (l : List (Share × ℕ)) (a : ℤ), ((l.foldl (fun secret p =>
      wrap (secret + p.1.value * ((basisAt shares p.2 p.1.index).1 *
        modInverse (basisAt shares p.2 p.1.index).2).tmod fieldPrime)) a : ℤ) : Residue) =
      a + (l.map fun p => (p.1.value : Residue) * ((basisAt shares p.2 p.1.index).1 *
        modInverse (basisAt shares p.2 p.1.index).2)).sum := by
    intro l
    induction l with
    | nil => simp
    | cons p l ih =>
      intro a
      rw [List.foldl_cons, ih]
      simp [add_assoc]
  rw [reconstructSecret, cast_tmod, Int.cast_add, cast_fieldPrime, add_zero, hfold, Int.cast_zero, zero_add]

/-! ## Chosen shares -/

section
variable {ks : List ℕ} {g : ℕ → Share} {i k : ℕ}

theorem prod_eraseIdx (hks : ks.Nodup) (hg : ∀ k, (g k).index = k) (hi : ks[i]? = some k) (c : Residue) :
    (((ks.map g).eraseIdx i).map fun share => c - share.index).prod =
      ∏ j ∈ ks.toFinset.erase k, (c - j) := by
  obtain ⟨hlt, rfl⟩ := List.getElem?_eq_some_iff.1 hi
  have herase : (ks.erase ks[i]).toFinset = ks.toFinset.erase ks[i] := by
    ext j
    rw [List.mem_toFinset, hks.mem_erase_iff, Finset.mem_erase, List.mem_toFinset]
  rw [List.eraseIdx_map, ← hks.erase_getElem i hlt, List.map_map, ← herase,
    List.prod_toFinset _ (hks.erase _)]
  simp only [Function.comp_def, hg]

theorem cast_basisAt_map (hks : ks.Nodup) (hg : ∀ k, (g k).index = k) (hi : ks[i]? = some k) :
    ((basisAt (ks.map g) i k).1 : Residue) = ∏ j ∈ ks.toFinset.erase k, ((0 : Residue) - j) ∧
    ((basisAt (ks.map g) i k).2 : Residue) = ∏ j ∈ ks.toFinset.erase k, ((k : Residue) - j) := by
  rw [(cast_basisAt (ks.map g) i k).1, (cast_basisAt (ks.map g) i k).2, prod_eraseIdx hks hg hi,
    prod_eraseIdx hks hg hi, Int.cast_natCast]
  exact ⟨rfl, rfl⟩

theorem mem_zipIdx_map {p : Share × ℕ} (hp : p ∈ (ks.map g).zipIdx) : ∃ k, ks[p.2]? = some k ∧ p.1 = g k := by
  rw [List.mem_zipIdx_iff_getElem?, List.getElem?_map, Option.map_eq_some_iff] at hp
  obtain ⟨k, hk, hgk⟩ := hp
  exact ⟨k, hk, hgk.symm⟩

/-- The denominators are invertible if the differences of the indices are. -/
theorem denominators_isCoprime_iff (hks : ks.Nodup) (hg : ∀ k, (g k).index = k) :
    (∀ d ∈ denominators (ks.map g), IsCoprime d fieldPrime) ↔
      ∀ a ∈ ks, ∀ b ∈ ks, a ≠ b → IsCoprime ((a : ℤ) - b) fieldPrime := by
  have hdiff : ∀ {k}, IsUnit (∏ j ∈ ks.toFinset.erase k, ((k : Residue) - j)) ↔
      ∀ b ∈ ks, k ≠ b → IsCoprime ((k : ℤ) - b) fieldPrime := by
    intro k
    simp only [IsUnit.prod_iff, Finset.mem_erase, List.mem_toFinset, ← isUnit_cast_iff, Int.cast_sub,
      Int.cast_natCast]
    exact ⟨fun h b hb hne => h b ⟨hne.symm, hb⟩, fun h b hb => h b hb.2 hb.1.symm⟩
  constructor
  · intro h a ha
    obtain ⟨i, hi⟩ := List.mem_iff_getElem?.1 ha
    rw [← hdiff, ← (cast_basisAt_map hks hg hi).2, isUnit_cast_iff]
    refine h _ (List.mem_map.2 ⟨(g a, i), ?_, by rw [hg]⟩)
    rw [List.mem_zipIdx_iff_getElem?, List.getElem?_map, hi]
    rfl
  · intro h d hd
    obtain ⟨p, hp, rfl⟩ := List.mem_map.1 hd
    obtain ⟨k, hk, hgk⟩ := mem_zipIdx_map hp
    rw [hgk, hg, ← isUnit_cast_iff, (cast_basisAt_map hks hg hk).2, hdiff]
    exact h k (List.mem_of_getElem? hk)

/-- **Reconstruction**: the value at zero of the polynomial, up to its last coefficient. -/
theorem cast_reconstructSecret (hks : ks.Nodup) (hg : ∀ k, (g k).index = k)
    (hunit : ∀ a ∈ ks, ∀ b ∈ ks, a ≠ b → IsCoprime ((a : ℤ) - b) fieldPrime)
    {f : Polynomial Residue} (hf : f.natDegree ≤ ks.length)
    (hval : ∀ k ∈ ks, ((g k).value : Residue) = f.eval (k : Residue)) :
    (reconstructSecret (ks.map g) : Residue) =
      f.eval 0 - f.coeff ks.length * ∏ k ∈ ks.toFinset, ((0 : Residue) - k) := by
  have hcard : ks.toFinset.card = ks.length := List.toFinset_card_of_nodup hks
  have hapart : Interpolation.Apart ks.toFinset fun k : ℕ => (k : Residue) := by
    intro a ha b hb hne
    have := isUnit_cast_iff.2 (hunit a (List.mem_toFinset.1 ha) b (List.mem_toFinset.1 hb) hne)
    rwa [Int.cast_sub, Int.cast_natCast, Int.cast_natCast] at this
  have hprod : ∀ k ∈ ks.toFinset, IsUnit (∏ j ∈ ks.toFinset.erase k, ((k : Residue) - j)) := by
    intro k hk
    refine IsUnit.prod_iff.2 fun j hj => ?_
    exact hapart k hk j (Finset.mem_of_mem_erase hj) (Finset.ne_of_mem_erase hj).symm
  let term (k : ℕ) : Residue := f.eval (k : Residue) * ((∏ j ∈ ks.toFinset.erase k, ((0 : Residue) - j)) *
    (∏ j ∈ ks.toFinset.erase k, ((k : Residue) - j))⁻¹)
  have hterm : ∀ p ∈ (ks.map g).zipIdx, (p.1.value : Residue) * ((basisAt (ks.map g) p.2 p.1.index).1 *
      modInverse (basisAt (ks.map g) p.2 p.1.index).2) = term p.1.index := by
    intro p hp
    obtain ⟨k, hk, hgk⟩ := mem_zipIdx_map hp
    have hmem := List.mem_of_getElem? hk
    obtain ⟨hnum, hden⟩ := cast_basisAt_map hks hg hk
    have hden' : IsUnit ((basisAt (ks.map g) p.2 k).2 : Residue) := by
      rw [hden]
      exact hprod k (List.mem_toFinset.2 hmem)
    rw [hgk, hg, hnum, cast_modInverse hden', hden, hval k hmem]
  have hzip : (ks.map g).zipIdx.map (fun p => term p.1.index) = ks.map term := by
    have hsplit : (ks.map g).zipIdx.map (fun p => term p.1.index) =
        ((ks.map g).zipIdx.map Prod.fst).map fun share => term share.index := by
      rw [List.map_map]
      rfl
    rw [hsplit, List.zipIdx_map_fst, List.map_map]
    exact List.map_congr_left fun k _ => congrArg term (hg k)
  rw [cast_sum, List.map_congr_left hterm, hzip, ← hcard, ← hapart.sum_basis_eval
    (fun k hk => ZMod.mul_inv_of_unit _ (hprod k hk)) (hf.trans_eq hcard.symm) 0, List.sum_toFinset _ hks]

end

/-- Not three indices have invertible differences: two of them differ by an even number. -/
theorem length_le_two {ks : List ℕ} (hks : ks.Nodup)
    (h : ∀ a ∈ ks, ∀ b ∈ ks, a ≠ b → IsCoprime ((a : ℤ) - b) fieldPrime) : ks.length ≤ 2 := by
  have hodd : ∀ a ∈ ks, ∀ b ∈ ks, a ≠ b → a % 2 ≠ b % 2 := by
    intro a ha b hb hne hmod
    have htwo : (2 : ℤ) ∣ (a : ℤ) - b := by omega
    have hunit := (h a ha b hb hne).isUnit_of_dvd' htwo (by decide)
    exact absurd (Int.isUnit_iff.1 hunit) (by decide)
  match ks, hks, hodd with
  | [], _, _ => simp
  | [_], _, _ => simp
  | [_, _], _, _ => simp
  | a :: b :: c :: l, hks, hodd =>
    simp only [List.nodup_cons, List.mem_cons, not_or] at hks
    have hab := hodd a (by simp) b (by simp) hks.1.1
    have hac := hodd a (by simp) c (by simp) hks.1.2.1
    have hbc := hodd b (by simp) c (by simp) hks.2.1.1
    omega

/-! ## The round trip -/

/-- As many indices as the threshold says, of shares that there are. -/
structure Chosen (threshold totalShares : ℕ) (ks : List ℕ) : Prop where
  nodup : ks.Nodup
  length_eq : ks.length = threshold
  bounds : ∀ k ∈ ks, 1 ≤ k ∧ k ≤ totalShares

section
variable (sha256 : String → BitVec 256) (secret threshold totalShares : ℕ)

/-- The share with index `k`. -/
def shareAt (k : ℕ) : Share := ⟨k, (splitSecret sha256 secret threshold totalShares).getD (k - 1) 0⟩

def chosenShares (ks : List ℕ) : List Share := ks.map (shareAt sha256 secret threshold totalShares)

/-- The coefficient of the highest power. -/
def lastCoefficient : ℤ := (generateCoefficients sha256 secret threshold).getD threshold 0

end

variable {sha256 : String → BitVec 256} {secret threshold totalShares : ℕ} {ks : List ℕ}

variable (totalShares) in
theorem cast_value_shareAt (hs : secret < 2 ^ 256) {k : ℕ} (hk : 1 ≤ k ∧ k ≤ totalShares) :
    ((shareAt sha256 secret threshold totalShares k).value : Residue) =
      (polynomialOf (generateCoefficients sha256 secret threshold)).eval (k : Residue) := by
  have hpos : ((k - 1 : ℕ) : ℤ) + 1 = (k : ℤ) := by omega
  rw [shareAt, splitSecret, secretChunks_eq hs, List.getD_eq_getElem?_getD, List.getElem?_map,
    List.getElem?_range (by omega), Option.map_some, Option.getD_some, List.foldl_cons, List.foldl_nil, cast_tmod,
    zero_add, hpos, cast_evaluatePolynomial, Int.cast_natCast]

theorem reconstructSecret_bounds (shares : List Share) :
    0 ≤ reconstructSecret shares ∧ reconstructSecret shares < fieldPrime := by
  have hfold : ∀ (l : List (Share × ℕ)) (a : ℤ), 0 ≤ a → 0 ≤ l.foldl (fun secret p =>
      wrap (secret + p.1.value * ((basisAt shares p.2 p.1.index).1 *
        modInverse (basisAt shares p.2 p.1.index).2).tmod fieldPrime)) a := by
    intro l
    induction l with
    | nil => exact fun a ha => ha
    | cons p l ih => exact fun a _ => ih _ (wrap_nonneg _)
  have hsum := Int.add_nonneg (hfold shares.zipIdx 0 le_rfl) fieldPrime_pos.le
  exact ⟨Int.tmod_nonneg _ hsum, Int.tmod_lt_of_pos _ fieldPrime_pos⟩

/-- The shares give the secret exactly if the last term vanishes at the indices. -/
theorem reconstructSecret_eq_iff (hs : (secret : ℤ) < fieldPrime) (hks : Chosen threshold totalShares ks)
    (hunit : ∀ a ∈ ks, ∀ b ∈ ks, a ≠ b → IsCoprime ((a : ℤ) - b) fieldPrime) :
    reconstructSecret (chosenShares sha256 secret threshold totalShares ks) = secret ↔
      fieldPrime ∣ lastCoefficient sha256 secret threshold * ks.prod := by
  have hs' : secret < 2 ^ 256 := by
    have hlt : fieldPrime < 2 ^ 256 := by decide
    exact_mod_cast hs.trans hlt
  have hlen : (generateCoefficients sha256 secret threshold).length ≤ threshold + 1 := by
    rw [generateCoefficients, List.length_cons, List.length_map, List.length_range']
  have hcast := cast_reconstructSecret hks.nodup (fun _ => rfl) hunit
    ((natDegree_polynomialOf hlen).trans_eq hks.length_eq.symm)
    fun k hk => cast_value_shareAt totalShares hs' (hks.bounds k hk)
  have hzero : (polynomialOf (generateCoefficients sha256 secret threshold)).eval 0 = (secret : Residue) := by
    rw [← Polynomial.coeff_zero_eq_eval_zero, coeff_polynomialOf, generateCoefficients, List.getD_cons_zero,
      Int.cast_natCast]
  have hprod : ∏ k ∈ ks.toFinset, ((0 : Residue) - k) = (-1) ^ ks.length * (ks.prod : Residue) := by
    rw [Nat.cast_list_prod, ← List.prod_toFinset _ hks.nodup, ← List.toFinset_card_of_nodup hks.nodup,
      ← Finset.prod_const, ← Finset.prod_mul_distrib]
    exact Finset.prod_congr rfl fun k _ => by ring
  have hlast : (polynomialOf (generateCoefficients sha256 secret threshold)).coeff ks.length =
      (lastCoefficient sha256 secret threshold : Residue) := by
    rw [coeff_polynomialOf, hks.length_eq, lastCoefficient]
  rw [hzero, hlast, hprod, mul_left_comm, ← Int.cast_natCast (R := Residue) ks.prod, ← Int.cast_mul] at hcast
  have hbounds := reconstructSecret_bounds (chosenShares sha256 secret threshold totalShares ks)
  constructor
  · intro h
    rw [fieldPrime_eq, ← ZMod.intCast_zmod_eq_zero_iff_dvd]
    rw [← chosenShares, h, Int.cast_natCast, eq_comm, sub_eq_self] at hcast
    have hunit' : IsUnit ((-1 : Residue) ^ ks.length) := (IsUnit.neg isUnit_one).pow _
    exact (hunit'.mul_right_eq_zero).1 hcast
  · intro h
    rw [fieldPrime_eq, ← ZMod.intCast_zmod_eq_zero_iff_dvd] at h
    rw [h, mul_zero, sub_zero, ← Int.cast_natCast] at hcast
    exact eq_of_cast_eq hbounds.1 hbounds.2 (Int.natCast_nonneg _) hs hcast

/-- **The round trip of secret sharing.**  As many shares as the threshold says give the secret, with
    inverses of all denominators, exactly if the differences of their indices are invertible and the last
    term of the polynomial vanishes at the indices. -/
theorem reconstructSecret_iff (hs : (secret : ℤ) < fieldPrime) (hks : Chosen threshold totalShares ks) :
    (reconstructSecret (chosenShares sha256 secret threshold totalShares ks) = secret ∧
      ∀ d ∈ denominators (chosenShares sha256 secret threshold totalShares ks), IsCoprime d fieldPrime) ↔
    (∀ a ∈ ks, ∀ b ∈ ks, a ≠ b → IsCoprime ((a : ℤ) - b) fieldPrime) ∧
      fieldPrime ∣ lastCoefficient sha256 secret threshold * ks.prod := by
  rw [and_comm, chosenShares, denominators_isCoprime_iff hks.nodup fun _ => rfl]
  exact and_congr_right fun hunit => reconstructSecret_eq_iff hs hks hunit

/-- Where all digests are zero, two of three shares give the secret back. -/
theorem reconstructSecret_iff_two :
    reconstructSecret (chosenShares (fun _ => 0) 5 2 3 [3, 2]) = (5 : ℕ) ∧
      ∀ d ∈ denominators (chosenShares (fun _ => 0) 5 2 3 [3, 2]), IsCoprime d fieldPrime := by
  have hchosen : Chosen 2 3 [3, 2] := ⟨by decide, rfl, by decide⟩
  refine (reconstructSecret_iff (by decide) hchosen).2 ⟨?_, ⟨0, rfl⟩⟩
  intro a ha b hb hne
  simp only [List.mem_cons, List.not_mem_nil, or_false] at ha hb
  rcases ha with rfl | rfl <;> rcases hb with rfl | rfl
  · exact absurd rfl hne
  · exact isCoprime_one_left
  · exact isCoprime_one_left.neg_left
  · exact absurd rfl hne

/-- One share of one, whose digest is one: it is the secret plus one.  Of three shares, the first and the
    last differ by two. -/
theorem one_share_too_few :
    (Chosen 1 1 [1] ∧ reconstructSecret (chosenShares (fun _ => 1) 0 1 1 [1]) ≠ (0 : ℕ)) ∧
    Chosen 3 3 [1, 2, 3] ∧
      ¬∀ d ∈ denominators (chosenShares (fun _ => 1) 0 3 3 [1, 2, 3]), IsCoprime d fieldPrime := by
  have hone : Chosen 1 1 [1] := ⟨by decide, rfl, by decide⟩
  have hthree : Chosen 3 3 [1, 2, 3] := ⟨by decide, rfl, by decide⟩
  refine ⟨⟨hone, fun h => ?_⟩, hthree, fun h => ?_⟩
  · have hunit : ∀ a ∈ ([1] : List ℕ), ∀ b ∈ ([1] : List ℕ), a ≠ b → IsCoprime ((a : ℤ) - b) fieldPrime := by
      intro a ha b hb hne
      exact absurd ((List.mem_singleton.1 ha).trans (List.mem_singleton.1 hb).symm) hne
    have hdvd := (reconstructSecret_eq_iff (by decide) hone hunit).1 h
    exact absurd (Int.le_of_dvd (by decide) hdvd) (by decide)
  · have hunit := (denominators_isCoprime_iff hthree.nodup fun _ => rfl).1 h
    exact absurd (length_le_two hthree.nodup hunit) (by decide)

end Mpc
