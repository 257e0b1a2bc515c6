/-
  InvertedIndex — buckets.

  A bucket is a list of event indices, four bytes each.  On byte strings of whole words
  the loops of the source are operations on that list:

  * `decodeBucket_eq_words`: decoding reads the list;
  * `words_evict`: an eviction keeps the last entries;
  * `words_withoutEvent`: a removal filters it.
-/
import AuditTransparency.InvertedIndex.Functions
import AuditTransparency.Soroban.TwoWay

namespace InvertedIndex

open Soroban
open AuditLedger (u32ToBytes words_flatMap_u32ToBytes length_flatMap_u32ToBytes)

theorem filterMap_range_getElem? {α : Type} (l : List α) (n : ℕ) :
    (List.range n).filterMap (fun i => l[i]?) = l.take n := by
  induction n with
  | zero => simp
  | succ n ih =>
    rw [List.range_succ, List.filterMap_append, ih, List.take_add_one]
    rcases h : l[n]? with _ | a
    · simp [h]
    · simp [h]

/-- Decoding a bucket reads its words. -/
theorem decodeBucket_eq_words (packed : Bytes) : decodeBucket packed = words packed := by
  rw [← List.take_of_length_le (length_words packed).le, ← filterMap_range_getElem?, decodeBucket]
  refine List.filterMap_congr fun i hi => ?_
  have hlt := List.mem_range.1 hi
  obtain ⟨b0, b1, b2, b3, h0, h1, h2, h3, hw⟩ := words_get packed i (by omega)
  rw [h0, h1, h2, h3, hw]
  rfl

/-- An eviction drops whole words from the front. -/
theorem evict_eq_drop {packed : Bytes} (h : 4 ∣ packed.length) (n : ℕ) :
    evict packed n = packed.drop ((packed.length / 4 - n) * 4) := by
  simp only [evict]
  split_ifs with hn
  · have hget : ∀ i, packed[(packed.length / 4 - n) * 4 + i]? =
        (packed.drop ((packed.length / 4 - n) * 4))[i]? := fun i => List.getElem?_drop.symm
    simp only [hget]
    rw [filterMap_range_getElem?]
    refine List.take_of_length_le ?_
    rw [List.length_drop]
    omega
  · rw [Nat.sub_eq_zero_of_le (by omega), Nat.zero_mul, List.drop_zero]

theorem words_evict {packed : Bytes} (h : 4 ∣ packed.length) (n : ℕ) :
    words (evict packed n) = (words packed).rtake n := by
  rw [evict_eq_drop h, words_drop, List.rtake, length_words]

/-- Whatever the bytes are, an eviction leaves room for `n` entries. -/
theorem length_evict_le (packed : Bytes) (n : ℕ) : (evict packed n).length / 4 ≤ n := by
  simp only [evict]
  split_ifs with hn
  · have hle := List.length_filterMap_le
      (fun i => packed[(packed.length / 4 - n) * 4 + i]?) (List.range (n * 4))
    rw [List.length_range] at hle
    omega
  · omega

theorem dvd_length_evict {packed : Bytes} (h : 4 ∣ packed.length) (n : ℕ) :
    4 ∣ (evict packed n).length := by
  rw [evict_eq_drop h, List.length_drop]
  omega

theorem wordAt_eq {packed : Bytes} {i e : ℕ} (h : (words packed)[i]? = some e) :
    wordAt packed (i * 4) = e := by
  have hi : i < packed.length / 4 := by
    rw [← length_words]
    exact (List.getElem?_eq_some_iff.1 h).1
  obtain ⟨b0, b1, b2, b3, h0, h1, h2, h3, hw⟩ := words_get packed i (by omega)
  rw [h, Option.some.injEq] at hw
  rw [wordAt, h0, h1, h2, h3, hw]
  rfl

/-- A removal packs the other entries. -/
theorem withoutEvent_eq (packed : Bytes) (e : ℕ) :
    withoutEvent packed e = ((words packed).filter (· ≠ e)).flatMap u32ToBytes := by
  have hloop : ∀ n, n ≤ packed.length / 4 →
      (List.range n).foldl (fun newPacked j =>
        if wordAt packed (j * 4) ≠ e then newPacked ++ u32ToBytes (wordAt packed (j * 4))
        else newPacked) [] =
      (((words packed).take n).filter (· ≠ e)).flatMap u32ToBytes := by
    intro n
    induction n with
    | zero => simp
    | succ n ih =>
      intro hn
      have hlt : n < (words packed).length := by
        rw [length_words]
        omega
      obtain ⟨w, hw⟩ : ∃ w, (words packed)[n]? = some w := ⟨_, List.getElem?_eq_getElem hlt⟩
      rw [List.range_succ, List.foldl_append, ih (by omega), List.take_add_one, hw, List.filter_append,
        List.flatMap_append, List.foldl_cons, List.foldl_nil, wordAt_eq hw]
      by_cases he : w = e
      · simp [he]
      · simp [he]
  have hall := hloop _ le_rfl
  rw [List.take_of_length_le (length_words packed).le] at hall
  exact hall

theorem words_withoutEvent (packed : Bytes) (e : ℕ) :
    words (withoutEvent packed e) = (words packed).filter (· ≠ e) := by
  rw [withoutEvent_eq]
  exact words_flatMap_u32ToBytes fun i hi => lt_of_mem_words (List.mem_filter.1 hi).1

theorem dvd_length_withoutEvent (packed : Bytes) (e : ℕ) : 4 ∣ (withoutEvent packed e).length := by
  rw [withoutEvent_eq, length_flatMap_u32ToBytes]
  exact Nat.dvd_mul_right ..

end InvertedIndex
