/-
  Numbers and their decimal texts, compared as texts.

  * `codes_lt_iff`: a text comes before another if it is less when both are read after a decimal point, or
    if it is a part of it but for zeros;
  * `codes_le_agrees_iff`: when texts are in the order of the numbers;
  * `length_toDigits_mono`: a greater number is not shorter.
-/
import Mathlib.Algebra.Order.Ring.Nat
import Mathlib.Data.List.Lex
import Mathlib.Tactic.Linarith
import Mathlib.Tactic.Ring

namespace Numerals

/-- The number that a text of digits stands for. -/
def value (l : List Char) : ℕ := Nat.ofDigitChars 10 l 0

/-- What is compared. -/
def codes (l : List Char) : List ℕ := l.map Char.toNat

def Digits (l : List Char) : Prop := ∀ c ∈ l, c.isDigit

/-- With the widths `v` and `w`, not greater when read after a decimal point. -/
def Below (v w a b : ℕ) : Prop := a * 10 ^ w ≤ b * 10 ^ v

instance (v w a b : ℕ) : Decidable (Below v w a b) := Nat.decLe _ _

variable {c d : Char} {x y : List Char}

theorem digit_bounds (h : c.isDigit) : 48 ≤ c.toNat ∧ c.toNat ≤ 57 := by
  simp only [Char.isDigit, Bool.and_eq_true, decide_eq_true_eq] at h
  exact ⟨h.1, h.2⟩

theorem Digits.tail (h : Digits (c :: x)) : Digits x := fun d hd => h d (List.mem_cons_of_mem _ hd)

theorem Digits.head (h : Digits (c :: x)) : 48 ≤ c.toNat ∧ c.toNat ≤ 57 :=
  digit_bounds (h c List.mem_cons_self)

theorem value_cons (c : Char) (x : List Char) :
    value (c :: x) = 10 ^ x.length * (c.toNat - 48) + value x := by
  rw [value, Nat.ofDigitChars_cons, Nat.ofDigitChars_eq_ofDigitChars_zero, Nat.mul_zero, Nat.zero_add]
  rfl

theorem value_lt (h : Digits x) : value x < 10 ^ x.length := by
  induction x with
  | nil => exact Nat.one_pos
  | cons c x ih =>
    have hc : c.toNat - 48 ≤ 9 := by
      have := h.head
      omega
    have hx := ih h.tail
    rw [value_cons, List.length_cons, pow_succ]
    nlinarith only [hc, hx]

/-- Numbers of two digits and more, by their first digits and the rest. -/
theorem split_lt_iff {A B X Y a b : ℕ} (ha : a < A) (hb : b < B) :
    (A * X + a) * (B * 10) < (B * Y + b) * (A * 10) ↔ X < Y ∨ X = Y ∧ a * B < b * A := by
  have hA : a * B < A * B := Nat.mul_lt_mul_of_pos_right ha (Nat.zero_lt_of_lt hb)
  have hB : b * A < A * B := by
    rw [Nat.mul_comm A]
    exact Nat.mul_lt_mul_of_pos_right hb (Nat.zero_lt_of_lt ha)
  rcases Nat.lt_trichotomy X Y with h | rfl | h
  · have hmul : A * B * (X + 1) ≤ A * B * Y := Nat.mul_le_mul_left _ h
    exact iff_of_true (by nlinarith only [hmul, hA]) (.inl h)
  · constructor
    · intro hlt
      exact .inr ⟨rfl, by nlinarith only [hlt]⟩
    · rintro (h | ⟨-, h⟩)
      · exact absurd h (Nat.lt_irrefl X)
      · nlinarith only [h]
  · have hmul : A * B * (Y + 1) ≤ A * B * X := Nat.mul_le_mul_left _ h
    refine iff_of_false (by nlinarith only [hmul, hB]) ?_
    rintro (h' | ⟨rfl, -⟩)
    · exact Nat.lt_asymm h h'
    · exact Nat.lt_irrefl _ h

theorem split_eq_iff {A B X Y a b : ℕ} (ha : a < A) (hb : b < B) :
    (A * X + a) * (B * 10) = (B * Y + b) * (A * 10) ↔ X = Y ∧ a * B = b * A := by
  have hlt := split_lt_iff (X := X) (Y := Y) ha hb
  have hgt := split_lt_iff (X := Y) (Y := X) hb ha
  constructor
  · intro h
    rcases Nat.lt_trichotomy X Y with hXY | rfl | hXY
    · exact absurd h (Nat.ne_of_lt (hlt.2 (.inl hXY)))
    · refine ⟨rfl, ?_⟩
      nlinarith only [h]
    · exact absurd h.symm (Nat.ne_of_lt (hgt.2 (.inl hXY)))
  · rintro ⟨rfl, h⟩
    nlinarith only [h]

/-- The order of texts. -/
theorem codes_lt_iff (hx : Digits x) (hy : Digits y) :
    codes x < codes y ↔ value x * 10 ^ y.length < value y * 10 ^ x.length ∨
      value x * 10 ^ y.length = value y * 10 ^ x.length ∧ x.length < y.length := by
  induction x generalizing y with
  | nil =>
    cases y with
    | nil => exact iff_of_false (List.not_lt_nil _) (by decide)
    | cons d y =>
      refine iff_of_true (List.nil_lt_cons _ _) ?_
      rw [List.length_nil, pow_zero, Nat.mul_one, value, Nat.ofDigitChars_nil, Nat.zero_mul]
      rcases Nat.eq_zero_or_pos (value (d :: y)) with h | h
      · exact .inr ⟨h.symm, Nat.succ_pos _⟩
      · exact .inl h
  | cons c x ih =>
    cases y with
    | nil =>
      refine iff_of_false (List.not_lt_nil _) ?_
      rw [show value [] = 0 from Nat.ofDigitChars_nil, Nat.zero_mul]
      rintro (h | ⟨-, h⟩)
      · exact absurd h (Nat.not_lt_zero _)
      · exact absurd h (Nat.not_lt_zero _)
    | cons d y =>
      have hc := hx.head
      have hd := hy.head
      have hvx := value_lt hx.tail
      have hvy := value_lt hy.tail
      have hlt : c.toNat < d.toNat ↔ c.toNat - 48 < d.toNat - 48 := by omega
      have heq : c.toNat = d.toNat ↔ c.toNat - 48 = d.toNat - 48 := by omega
      have hcodes : codes (c :: x) < codes (d :: y) ↔
          c.toNat < d.toNat ∨ c.toNat = d.toNat ∧ codes x < codes y :=
        List.cons_lt_cons_iff
      rw [hcodes, ih hx.tail hy.tail, hlt, heq, value_cons, value_cons, List.length_cons, List.length_cons,
        pow_succ, pow_succ, split_lt_iff hvx hvy, split_eq_iff hvx hvy]
      constructor
      · rintro (h | ⟨h, h' | ⟨h', hlen⟩⟩)
        · exact .inl (.inl h)
        · exact .inl (.inr ⟨h, h'⟩)
        · exact .inr ⟨⟨h, h'⟩, Nat.succ_lt_succ hlen⟩
      · rintro ((h | ⟨h, h'⟩) | ⟨⟨h, h'⟩, hlen⟩)
        · exact .inl h
        · exact .inr ⟨h, .inl h'⟩
        · exact .inr ⟨h, .inr ⟨h', Nat.lt_of_succ_lt_succ hlen⟩⟩

/-- Texts are in the order of their numbers exactly if these keep their order after a decimal point, as long
    as the text of the greater number is not the shorter. -/
theorem codes_le_agrees_iff (hx : Digits x) (hy : Digits y) (hle : value x ≤ value y → x.length ≤ y.length)
    (hge : value y ≤ value x → y.length ≤ x.length) :
    (codes x ≤ codes y ↔ value x ≤ value y) ↔
      (value x < value y → Below x.length y.length (value x) (value y)) ∧
      (value y < value x → Below y.length x.length (value y) (value x)) := by
  have hlex : codes x ≤ codes y ↔ ¬(value y * 10 ^ x.length < value x * 10 ^ y.length ∨
      value y * 10 ^ x.length = value x * 10 ^ y.length ∧ y.length < x.length) := by
    rw [← codes_lt_iff hy hx]
    exact not_lt.symm
  rw [hlex]
  rcases Nat.lt_trichotomy (value x) (value y) with h | h | h
  · have hlen := Nat.not_lt.2 (hle h.le)
    simp only [hlen, and_false, or_false, h.le, iff_true, h, true_implies, Nat.not_lt, Below, h.asymm,
      false_implies, and_true]
  · have hlen : x.length = y.length := Nat.le_antisymm (hle h.le) (hge h.ge)
    simp only [h, hlen, Nat.lt_irrefl, and_false, or_false, not_false_eq_true, Nat.le_refl, false_implies,
      and_true]
  · have hlen := hge h.le
    simp only [Nat.not_le.2 h, iff_false, not_not, h.asymm, false_implies, true_and, h, true_implies, Below]
    constructor
    · rintro (h' | ⟨h', -⟩)
      · exact h'.le
      · exact h'.le
    · intro h'
      rcases Nat.lt_or_eq_of_le h' with hlt | heq
      · exact .inl hlt
      · refine .inr ⟨heq, Nat.lt_of_le_of_ne hlen fun hsame => ?_⟩
        rw [hsame] at heq
        exact absurd (Nat.eq_of_mul_eq_mul_right (by positivity) heq) h.ne

/-! ## The text of a number -/

theorem digits_toDigits (n : ℕ) : Digits (Nat.toDigits 10 n) := fun _ hc =>
  Nat.isDigit_of_mem_toDigits (by decide) (by decide) hc

theorem value_toDigits (n : ℕ) : value (Nat.toDigits 10 n) = n := Nat.ofDigitChars_ten_toDigits

theorem length_toDigits_mono {a b : ℕ} (h : a ≤ b) :
    (Nat.toDigits 10 a).length ≤ (Nat.toDigits 10 b).length := by
  rw [Nat.length_toDigits_le_iff (by decide) Nat.length_toDigits_pos]
  exact Nat.lt_of_le_of_lt h ((Nat.length_toDigits_le_iff (by decide) Nat.length_toDigits_pos).1 le_rfl)

theorem digits_pad (k n : ℕ) : Digits (List.replicate k '0' ++ Nat.toDigits 10 n) := by
  intro c hc
  rcases List.mem_append.1 hc with h | h
  · rw [List.eq_of_mem_replicate h]
    rfl
  · exact digits_toDigits n c h

theorem value_pad (k n : ℕ) : value (List.replicate k '0' ++ Nat.toDigits 10 n) = n := by
  rw [value, Nat.ofDigitChars_append, Nat.ofDigitChars_replicate_zero, Nat.mul_zero]
  exact value_toDigits n

end Numerals
