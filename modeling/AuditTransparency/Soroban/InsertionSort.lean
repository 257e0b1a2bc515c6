/-
  Insertion sort in place, on a vector whose reads and writes are checked.

  The inner loop moves what is greater than the key one place up, from position `j` down, and
  puts the key where it stops.  `sort_eq`: no access is out of bounds, and the result is
  the sorted list.
-/
import Mathlib.Data.List.Induction
import Mathlib.Data.List.Perm.Basic
import Mathlib.Data.List.Sort
import Mathlib.Order.Defs.LinearOrder

namespace Soroban.InsertionSort

variable {α : Type}

/-- `Vec::set`: a write inside the vector. -/
def setAt (l : List α) (j : ℕ) (a : α) : Option (List α) := if j < l.length then some (l.set j a) else none

theorem setAt_append (pre post : List α) (x a : α) :
    setAt (pre ++ x :: post) pre.length a = some (pre ++ a :: post) := by
  have hlt : pre.length < (pre ++ x :: post).length := by
    rw [List.length_append, List.length_cons]
    omega
  rw [setAt, if_pos hlt, List.set_append_right _ _ le_rfl, Nat.sub_self]
  rfl

variable [LinearOrder α]

/-- The inner loop. -/
def shift (key : α) : ℕ → List α → Option (List α)
  | 0, l => setAt l 0 key
  | j + 1, l => do
    let prev ← l[j]?
    if prev > key then shift key j (← setAt l (j + 1) prev) else setAt l (j + 1) key

/-- The outer loop, `for i in 1..n`. -/
def sort (l : List α) : Option (List α) :=
  (List.range' 1 (l.length - 1)).foldlM (fun l i => do shift (← l[i]?) i l) l

/-- **The inner loop inserts the key** into the part of the vector before it, when that is sorted. -/
theorem shift_append (key x : α) (post : List α) {pre : List α} (hpre : pre.Pairwise (· ≤ ·)) :
    ∃ out : List α, shift key pre.length (pre ++ x :: post) = some (out ++ post) ∧
      out.Perm (key :: pre) ∧ out.Pairwise (· ≤ ·) := by
  induction pre using List.reverseRecOn generalizing x post with
  | nil => exact ⟨[key], setAt_append [] post x key, List.Perm.refl _, List.pairwise_singleton ..⟩
  | append_singleton pre b ih =>
    obtain ⟨hsorted, -, hb⟩ := List.pairwise_append.1 hpre
    have hb : ∀ a ∈ pre, a ≤ b := fun a ha => hb a ha b (by simp)
    have hget : (pre ++ [b] ++ x :: post)[pre.length]? = some b := by simp
    rw [List.length_append, List.length_singleton, shift, hget, Option.bind_eq_bind, Option.bind_some]
    have hset : ∀ a, setAt (pre ++ [b] ++ x :: post) (pre.length + 1) a = some (pre ++ b :: a :: post) := by
      intro a
      have h := setAt_append (pre ++ [b]) post x a
      rwa [List.length_append, List.length_singleton, List.append_assoc _ [b] (a :: post)] at h
    by_cases hkey : b > key
    · -- `b` goes up, and the key goes into what is before it
      rw [if_pos hkey, hset, Option.bind_eq_bind, Option.bind_some]
      obtain ⟨out, hout, hperm, hle⟩ := ih b (b :: post) hsorted
      refine ⟨out ++ [b], by rw [hout, List.append_assoc]; rfl, ?_, ?_⟩
      · exact (hperm.append_right [b]).trans (List.Perm.refl _)
      · refine List.pairwise_append.2 ⟨hle, List.pairwise_singleton .., fun a ha c hc => ?_⟩
        rw [List.mem_singleton.1 hc]
        rcases List.mem_cons.1 (hperm.mem_iff.1 ha) with rfl | ha
        · exact hkey.le
        · exact hb a ha
    · rw [if_neg hkey, hset]
      refine ⟨pre ++ [b] ++ [key], by simp, ?_, ?_⟩
      · exact List.perm_append_singleton key (pre ++ [b])
      · refine List.pairwise_append.2 ⟨hpre, List.pairwise_singleton .., fun a ha c hc => ?_⟩
        rw [List.mem_singleton.1 hc]
        rcases List.mem_append.1 ha with ha | ha
        · exact (hb a ha).trans (not_lt.1 hkey)
        · rw [List.mem_singleton.1 ha]
          exact not_lt.1 hkey

/-- The rounds that are left, when `pre` is sorted. -/
theorem foldlM_shift (post : List α) {pre : List α} (hpre : pre.Pairwise (· ≤ ·)) :
    ∃ out : List α, (List.range' pre.length post.length).foldlM (fun l i => do shift (← l[i]?) i l)
      (pre ++ post) =
      some out ∧ out.Perm (pre ++ post) ∧ out.Pairwise (· ≤ ·) := by
  induction post generalizing pre with
  | nil => exact ⟨pre, by simp, by simp, hpre⟩
  | cons x post ih =>
    obtain ⟨out, hout, hperm, hle⟩ := shift_append x x post hpre
    have hlen : out.length = pre.length + 1 := by rw [hperm.length_eq, List.length_cons]
    obtain ⟨sorted, hs, hsperm, hsle⟩ := ih hle
    refine ⟨sorted, ?_, ?_, hsle⟩
    · have hget : (pre ++ x :: post)[pre.length]? = some x := by simp
      rw [List.length_cons, List.range'_succ, List.foldlM_cons, hget, Option.bind_eq_bind,
        Option.bind_eq_bind,
        Option.bind_some, hout, Option.bind_some, ← hlen]
      exact hs
    · refine hsperm.trans ((hperm.append_right post).trans ?_)
      exact List.perm_middle.symm

/-- **The vector is sorted**, and no access is out of bounds. -/
theorem sort_eq (l : List α) : sort l = some (l.insertionSort (· ≤ ·)) := by
  cases l with
  | nil => rfl
  | cons a l =>
    obtain ⟨out, hout, hperm, hle⟩ := foldlM_shift l (List.pairwise_singleton (· ≤ ·) a)
    have hsort : sort (a :: l) = some out := hout
    rw [hsort]
    exact congrArg some ((hperm.trans (List.perm_insertionSort (· ≤ ·) (a :: l)).symm).eq_of_pairwise' hle
      (List.pairwise_insertionSort (· ≤ ·) (a :: l)))

end Soroban.InsertionSort
