/-
  Lists of words in one string, separated by blanks.

  `words` is `s.split(" ").filter(Boolean)` and `joinWords` is `l.join(" ")`; what was joined from
  words is split into the same words (`words_joinWords`).
-/
import Mathlib.Data.List.Basic

namespace Words

/-- `s.split(" ")` -/
def splitBlanks (s : String) : List String := (s.toList.splitOn ' ').map String.ofList

/-- `s.split(" ").filter(Boolean)` -/
def words (s : String) : List String := (splitBlanks s).filter (· ≠ "")

/-- `l.join(" ")` -/
def joinWords (l : List String) : String := String.ofList ([' '].intercalate (l.map String.toList))

/-- A string that `words` can return. -/
def IsWord (s : String) : Prop := s ≠ "" ∧ ' ' ∉ s.toList

theorem not_mem_of_mem_splitOn {l m : List Char} (h : m ∈ l.splitOn ' ') : ' ' ∉ m := by
  induction l generalizing m with
  | nil =>
    rw [List.splitOn_nil, List.mem_singleton] at h
    simp [h]
  | cons c l ih =>
    rw [List.splitOn_cons_eq_if_modifyHead] at h
    split_ifs at h with hc
    · rcases List.mem_cons.1 h with rfl | h
      · simp
      · exact ih h
    · cases hs : l.splitOn ' ' with
      | nil => exact absurd hs (List.splitOn_ne_nil _ _)
      | cons m' ms =>
        rw [hs, List.modifyHead_cons] at h
        rcases List.mem_cons.1 h with rfl | h
        · rw [List.mem_cons, not_or]
          refine ⟨fun he => hc (beq_iff_eq.2 he.symm), ih ?_⟩
          rw [hs]
          exact List.mem_cons_self
        · exact ih (hs ▸ List.mem_cons_of_mem _ h)

theorem isWord_of_mem_words {s w : String} (h : w ∈ words s) : IsWord w := by
  obtain ⟨hmem, hne⟩ := List.mem_filter.1 h
  obtain ⟨m, hm, rfl⟩ := List.mem_map.1 hmem
  refine ⟨by simpa using hne, ?_⟩
  rw [String.toList_ofList]
  exact not_mem_of_mem_splitOn hm

/-- Joining words and splitting them again. -/
theorem words_joinWords {l : List String} (h : ∀ w ∈ l, IsWord w) : words (joinWords l) = l := by
  rw [words, splitBlanks, joinWords, String.toList_ofList]
  rcases eq_or_ne l [] with rfl | hne
  · rfl
  · rw [List.splitOn_intercalate ' ' (fun m hm => ?_) (by simpa using hne), List.map_map]
    · have hid : String.ofList ∘ String.toList = id := by
        funext s
        exact String.ofList_toList
      rw [hid, List.map_id, List.filter_eq_self.2]
      intro w hw
      simpa using (h w hw).1
    · obtain ⟨w, hw, rfl⟩ := List.mem_map.1 hm
      exact (h w hw).2

end Words
