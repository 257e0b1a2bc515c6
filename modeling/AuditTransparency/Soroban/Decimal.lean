/-
  Soroban contracts — text in `Bytes`.

  `ascii` are the bytes of a text, and `decimal` those of a number as `format!`
  writes it.  A number in front of something that does not start with a digit can
  be read back (`decimal_append_inj`), and so can one at the end.
-/
import AuditTransparency.Soroban.Call

namespace Soroban

/-- The bytes of an ASCII text. -/
def ascii (text : String) : Bytes := text.toList.map fun c => UInt8.ofNat c.toNat

/-- `format!("{}", n)` -/
def decimal (n : ℕ) : Bytes := (Nat.toDigits 10 n).map fun c => UInt8.ofNat c.toNat

/-- The bytes of the ten digits. -/
def isDigit (b : UInt8) : Bool := (Char.ofNat b.toNat).isDigit

theorem ofNat_toNat_digit {c : Char} (h : c.isDigit = true) :
    Char.ofNat (UInt8.ofNat c.toNat).toNat = c := by
  have hle : c.toNat ≤ 57 := by
    simp only [Char.isDigit, Bool.and_eq_true, decide_eq_true_eq] at h
    exact h.2
  rw [UInt8.toNat_ofNat', Nat.mod_eq_of_lt (by omega), Char.ofNat_toNat]

theorem isDigit_of_mem_decimal {n : ℕ} {b : UInt8} (h : b ∈ decimal n) : isDigit b = true := by
  obtain ⟨c, hc, rfl⟩ := List.mem_map.1 h
  have hd := Nat.isDigit_of_mem_toDigits (by omega) (by omega) hc
  rw [isDigit, ofNat_toNat_digit hd, hd]

theorem decimal_injective : Function.Injective decimal := by
  have hread : ∀ n, (decimal n).map (fun b => Char.ofNat b.toNat) = Nat.toDigits 10 n := by
    intro n
    rw [decimal, List.map_map]
    refine (List.map_congr_left fun c hc => ?_).trans (List.map_id _)
    exact ofNat_toNat_digit (Nat.isDigit_of_mem_toDigits (by omega) (by omega) hc)
  intro n k h
  have hdigits : Nat.toDigits 10 n = Nat.toDigits 10 k := by rw [← hread, ← hread, h]
  rw [← Nat.ofDigitChars_ten_toDigits (n := n), ← Nat.ofDigitChars_ten_toDigits (n := k), hdigits]

/-- A number ends where the digits end. -/
theorem decimal_append_inj {n k : ℕ} {b c : UInt8} {x y : Bytes} (hb : isDigit b = false)
    (hc : isDigit c = false) (h : decimal n ++ b :: x = decimal k ++ c :: y) :
    n = k ∧ b :: x = c :: y := by
  have htake : ∀ (m : ℕ) (d : UInt8) (z : Bytes), isDigit d = false →
      (decimal m ++ d :: z).takeWhile isDigit = decimal m := by
    intro m d z hd
    rw [List.takeWhile_append_of_pos fun _ => isDigit_of_mem_decimal,
      List.takeWhile_cons_of_neg (by simp [hd]),
      List.append_nil]
  have hn : decimal n = decimal k := by rw [← htake n b x hb, h, htake k c y hc]
  obtain rfl := decimal_injective hn
  exact ⟨rfl, List.append_cancel_left h⟩

end Soroban
