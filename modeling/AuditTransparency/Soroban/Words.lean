/-
  Soroban contracts — little-endian words in `Bytes`.

  Contracts pack `u32` values into one `Bytes` value, four bytes a word, and
  read them back by offset.

  * `byteAt v k`: the byte of `v` that starts at bit `k`;
  * `word`: four bytes joined by shifts, inverse to taking the bytes of a `u32`;
  * `words b`: the words packed in `b`; appending the bytes of `i` appends `i`,
    and the four bytes at offset `4 * k` join to the `k`-th word.
-/
import AuditTransparency.Soroban.Call
import Mathlib.Data.Nat.Bitwise
import Mathlib.Data.Vector.Basic

namespace Soroban

/-- `((v >> k) & 0xff) as u8` -/
def byteAt (v k : ℕ) : UInt8 := UInt8.ofNat ((v >>> k) &&& 0xff)

/-- `b0 | (b1 << 8) | (b2 << 16) | (b3 << 24)` -/
def word (b0 b1 b2 b3 : UInt8) : ℕ :=
  b0.toNat ||| (b1.toNat <<< 8) ||| (b2.toNat <<< 16) ||| (b3.toNat <<< 24)

theorem byteAt_toNat (v k : ℕ) : (byteAt v k).toNat = v / 2 ^ k % 256 := by
  have h : (v >>> k) &&& 0xff = v / 2 ^ k % 256 := by
    rw [Nat.shiftRight_eq_div_pow]; exact Nat.and_two_pow_sub_one_eq_mod _ 8
  rw [byteAt, h, UInt8.toNat_ofNat']
  omega

/-- The shifts of `word` do not overlap. -/
theorem word_eq_sum (b0 b1 b2 b3 : UInt8) :
    word b0 b1 b2 b3 = b0.toNat + b1.toNat * 2 ^ 8 + b2.toNat * 2 ^ 16 + b3.toNat * 2 ^ 24 := by
  have hor : ∀ {x y k : ℕ}, x < 2 ^ k → x ||| (y <<< k) = x + y * 2 ^ k := by
    intro x y k h
    rw [Nat.shiftLeft_eq, Nat.lor_comm, Nat.mul_comm, ← Nat.two_pow_add_eq_or_of_lt h]
    omega
  have h0 := b0.toNat_lt; have h1 := b1.toNat_lt; have h2 := b2.toNat_lt
  have e1 : b0.toNat ||| (b1.toNat <<< 8) = b0.toNat + b1.toNat * 2 ^ 8 := hor (by omega)
  have e2 : (b0.toNat + b1.toNat * 2 ^ 8) ||| (b2.toNat <<< 16) =
      b0.toNat + b1.toNat * 2 ^ 8 + b2.toNat * 2 ^ 16 := hor (by omega)
  rw [word, e1, e2]
  exact hor (by omega)

theorem word_byteAt {v : ℕ} (h : v < 2 ^ 32) :
    word (byteAt v 0) (byteAt v 8) (byteAt v 16) (byteAt v 24) = v := by
  simp only [word_eq_sum, byteAt_toNat]
  omega

/-! ## Packed words -/

/-- The words packed in `b`. -/
def words : Bytes → List ℕ
  | b0 :: b1 :: b2 :: b3 :: b => word b0 b1 b2 b3 :: words b
  | _ => []

@[simp] theorem words_nil : words [] = [] := rfl

theorem length_words : ∀ b : Bytes, (words b).length = b.length / 4
  | b0 :: b1 :: b2 :: b3 :: b => by
    simp only [words, List.length_cons, length_words b]
    omega
  | [] | [_] | [_, _] | [_, _, _] => by simp [words]

/-- Appending the bytes of `v` appends the word `v`. -/
theorem words_append {v : ℕ} (hv : v < 2 ^ 32) :
    ∀ b : Bytes, 4 ∣ b.length →
      words (b ++ [byteAt v 0, byteAt v 8, byteAt v 16, byteAt v 24]) = words b ++ [v]
  | b0 :: b1 :: b2 :: b3 :: b, h => by
    have hb : 4 ∣ b.length := by simp only [List.length_cons] at h; omega
    simp only [List.cons_append, words, words_append hv b hb]
  | [], _ => by simp only [List.nil_append, words, word_byteAt hv]
  | [_], h | [_, _], h | [_, _, _], h => by simp at h

/-- The bytes at offset `4 * k` are those of the `k`-th word. -/
theorem words_get :
    ∀ (b : Bytes) (k : ℕ), k * 4 + 4 ≤ b.length →
      ∃ b0 b1 b2 b3, b[k * 4]? = some b0 ∧ b[k * 4 + 1]? = some b1 ∧ b[k * 4 + 2]? = some b2 ∧
        b[k * 4 + 3]? = some b3 ∧ (words b)[k]? = some (word b0 b1 b2 b3)
  | b0 :: b1 :: b2 :: b3 :: b, 0, _ => ⟨b0, b1, b2, b3, rfl, rfl, rfl, rfl, rfl⟩
  | b0 :: b1 :: b2 :: b3 :: b, k + 1, h => by
    have hk : k * 4 + 4 ≤ b.length := by simp only [List.length_cons] at h; omega
    have hs : (k + 1) * 4 = k * 4 + 4 := by omega
    simpa only [hs, words, List.getElem?_cons_succ] using words_get b k hk
  | [], k, h | [_], k, h | [_, _], k, h | [_, _, _], k, h => by
    simp only [List.length_cons, List.length_nil] at h; omega

theorem word_lt (b0 b1 b2 b3 : UInt8) : word b0 b1 b2 b3 < 2 ^ 32 := by
  have h0 := b0.toNat_lt; have h1 := b1.toNat_lt; have h2 := b2.toNat_lt; have h3 := b3.toNat_lt
  rw [word_eq_sum]
  omega

theorem lt_of_mem_words {v : ℕ} : ∀ {b : Bytes}, v ∈ words b → v < 2 ^ 32
  | b0 :: b1 :: b2 :: b3 :: b, h => by
    rcases List.mem_cons.1 h with rfl | h
    · exact word_lt ..
    · exact lt_of_mem_words h
  | [], h | [_], h | [_, _], h | [_, _, _], h => by cases h

/-- Dropping four bytes drops a word. -/
theorem words_drop : ∀ (k : ℕ) (b : Bytes), words (b.drop (k * 4)) = (words b).drop k
  | 0, b => by simp
  | k + 1, b0 :: b1 :: b2 :: b3 :: b => by
    have hk : (k + 1) * 4 = k * 4 + 4 := by omega
    rw [hk]
    exact words_drop k b
  | k + 1, [] | k + 1, [_] | k + 1, [_, _] | k + 1, [_, _, _] => by
    rw [List.drop_eq_nil_of_le (by simp only [List.length_cons, List.length_nil]; omega)]
    simp [words]

/-! ## Bytes of a word -/

/-- A number below `2 ^ (8 * n)` is determined by its `n` bytes. -/
theorem eq_of_byteAt {n v w : ℕ} (hv : v < 2 ^ (8 * n)) (hw : w < 2 ^ (8 * n))
    (h : ∀ i < n, byteAt v (8 * i) = byteAt w (8 * i)) : v = w := by
  refine Nat.eq_of_testBit_eq fun j => ?_
  by_cases hj : j < 8 * n
  · have hb := congrArg (fun b : UInt8 => b.toNat.testBit (j % 8)) (h (j / 8) (by omega))
    have hbit : ∀ x : ℕ, (byteAt x (8 * (j / 8))).toNat.testBit (j % 8) = x.testBit j := by
      intro x
      rw [byteAt_toNat, show (256 : ℕ) = 2 ^ 8 from rfl, Nat.testBit_mod_two_pow,
        Nat.testBit_div_two_pow, Nat.add_comm, Nat.div_add_mod]
      simp [Nat.mod_lt]
    simpa only [hbit] using hb
  · have hle : 2 ^ (8 * n) ≤ 2 ^ j := Nat.pow_le_pow_right Nat.two_pos (by omega)
    rw [Nat.testBit_eq_false_of_lt (by omega), Nat.testBit_eq_false_of_lt (by omega)]

/-- `to_le_bytes` of a number of `n` bytes. -/
def toLeBytes (n v : ℕ) : Bytes := (List.range n).map fun i => byteAt v (8 * i)

@[simp] theorem length_toLeBytes (n v : ℕ) : (toLeBytes n v).length = n := by
  rw [toLeBytes, List.length_map, List.length_range]

theorem toLeBytes_injective {n v w : ℕ} (hv : v < 2 ^ (8 * n)) (hw : w < 2 ^ (8 * n))
    (h : toLeBytes n v = toLeBytes n w) : v = w :=
  eq_of_byteAt hv hw fun i hi => List.map_inj_left.1 h i (List.mem_range.2 hi)

/-! ## Bytes of fixed length -/

/-- `BytesN<N>`, where it is not the type of digests. -/
abbrev BytesN (n : ℕ) := List.Vector UInt8 n

/-- The bytes of a number. -/
def BytesN.ofNat (n v : ℕ) : BytesN n := ⟨toLeBytes n v, length_toLeBytes n v⟩

theorem BytesN.ofNat_injective {n v w : ℕ} (hv : v < 2 ^ (8 * n)) (hw : w < 2 ^ (8 * n))
    (h : BytesN.ofNat n v = BytesN.ofNat n w) : v = w := toLeBytes_injective hv hw (congrArg Subtype.val h)

/-- **A short list does not contain all values.** -/
theorem BytesN.exists_not_mem {n : ℕ} {l : List (BytesN n)} (h : l.length < 2 ^ (8 * n)) : ∃ b, b ∉ l := by
  by_contra hall
  push Not at hall
  have hnodup : ((List.range (l.length + 1)).map (BytesN.ofNat n)).Nodup := by
    refine List.Nodup.map_on (fun v hv w hw => ?_) List.nodup_range
    rw [List.mem_range] at hv hw
    exact BytesN.ofNat_injective (by omega) (by omega)
  have hle := (List.subperm_of_subset hnodup fun b _ => hall b).length_le
  rw [List.length_map, List.length_range] at hle
  omega

end Soroban
