/-
  What is found after a write: in a list where an entry was replaced or added, and in a map where a
  key was.
-/
import Mathlib.Data.Nat.Notation
import Mathlib.Logic.Function.Basic

namespace Soroban

variable {α β : Type} {l : List α} {j k : ℕ} {a a' : α}

/-- After an entry of a list was replaced. -/
theorem getElem?_set_cases (h : (l.set j a')[k]? = some a) : l[k]? = some a ∨ k = j ∧ a = a' := by
  by_cases hj : j = k
  · subst hj
    rw [List.getElem?_set_self'] at h
    obtain ⟨_, _, he⟩ := Option.map_eq_some_iff.1 h
    exact Or.inr ⟨rfl, he.symm⟩
  · rw [List.getElem?_set_ne hj] at h
    exact Or.inl h

/-- After an entry was added at the end. -/
theorem getElem?_concat_cases (h : (l ++ [a'])[k]? = some a) : l[k]? = some a ∨ k = l.length ∧ a = a' := by
  rcases Nat.lt_or_ge k l.length with hk | hk
  · rw [List.getElem?_append_left hk] at h
    exact Or.inl h
  · have hlt : k < (l ++ [a']).length := (List.getElem?_eq_some_iff.1 h).1
    rw [List.length_append, List.length_singleton] at hlt
    obtain rfl : k = l.length := by omega
    rw [List.getElem?_concat_length] at h
    exact Or.inr ⟨rfl, (Option.some.inj h).symm⟩

/-- What was there before an entry was added. -/
theorem getElem?_concat_of_some (h : l[k]? = some a) : (l ++ [a'])[k]? = some a := by
  rw [List.getElem?_append_left (List.getElem?_eq_some_iff.1 h).1]
  exact h

/-- Writing what is there. -/
theorem set_of_getElem? (h : l[k]? = some a) : l.set k a = l := by
  obtain ⟨hlt, rfl⟩ := List.getElem?_eq_some_iff.1 h
  exact List.set_getElem_self hlt

/-- What is found under a key, when no two entries have the same. -/
theorem find?_key_eq_some {κ : Type} [DecidableEq κ] (key : α → κ) (hnodup : (l.map key).Nodup) {i : κ} :
    (l.find? fun a => key a == i) = some a ↔ a ∈ l ∧ key a = i := by
  constructor
  · intro h
    have hkey : (key a == i) = true := by simpa using List.find?_some h
    exact ⟨List.mem_of_find?_eq_some h, beq_iff_eq.1 hkey⟩
  · rintro ⟨ha, rfl⟩
    induction l with
    | nil => cases ha
    | cons b l ih =>
      rw [List.map_cons, List.nodup_cons] at hnodup
      rw [List.find?_cons]
      rcases List.mem_cons.1 ha with rfl | ha
      · rw [beq_self_eq_true]
      · have hne : key b ≠ key a := fun he => hnodup.1 (he ▸ List.mem_map_of_mem ha)
        rw [beq_eq_false_iff_ne.2 hne]
        exact ih hnodup.2 ha

/-- What a map holds under a key, after a key was written. -/
theorem update_cases [DecidableEq α] {f : α → Option β} {b b' : β}
    (h : Function.update f a' (some b') a = some b) : a = a' ∧ b = b' ∨ a ≠ a' ∧ f a = some b := by
  rcases eq_or_ne a a' with rfl | hne
  · rw [Function.update_self] at h
    exact Or.inl ⟨rfl, (Option.some.inj h).symm⟩
  · rw [Function.update_of_ne hne] at h
    exact Or.inr ⟨hne, h⟩

end Soroban
