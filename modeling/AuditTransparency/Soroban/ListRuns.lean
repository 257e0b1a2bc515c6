/-
  The runs of equal entries a list falls into, which copies of an entry it holds in a row, and lists
  in which entries of one kind come only right after entries of another (`Follows`).
-/
import Mathlib.Data.Nat.Notation
import Mathlib.Data.List.TakeWhile
import Mathlib.Data.List.Induction

namespace Soroban

variable {α : Type} {b c : α} {k r : ℕ} {q : List α}

/-- A list is empty or begins with a run, which ends before another entry or with the list. -/
theorem runs_induction [DecidableEq α] {motive : List α → Prop} (nil : motive [])
    (run : ∀ b r q, 0 < r → q.head? ≠ some b → motive q → motive (List.replicate r b ++ q))
    (p : List α) : motive p := by
  induction hn : p.length using Nat.strongRecOn generalizing p with
  | _ n ih =>
    subst hn
    rcases p with _ | ⟨b, p⟩
    · exact nil
    have htake : p.takeWhile (· = b) = List.replicate (p.takeWhile (· = b)).length b :=
      List.eq_replicate_of_mem fun x hx => by simpa using List.mem_takeWhile_imp hx
    have hp : b :: p = List.replicate ((p.takeWhile (· = b)).length + 1) b ++ p.dropWhile (· = b) := by
      rw [List.replicate_succ, List.cons_append, ← htake, List.takeWhile_append_dropWhile]
    rw [hp]
    refine run b _ _ (Nat.succ_pos _) ?_ (ih _ ?_ _ rfl)
    · intro hhead
      have := List.head?_dropWhile_not (· = b) p
      simp [hhead] at this
    · exact Nat.lt_succ_of_le (List.dropWhile_suffix _).length_le

/-- Copies that begin in a run and end behind it are none in the run or none behind it. -/
theorem replicate_split {l₁ l₂ : List α} (hq : q.head? ≠ some b) (h : List.replicate k c = l₁ ++ l₂)
    (h₁ : l₁ <:+ List.replicate r b) (h₂ : l₂ <+: q) : l₁ = [] ∨ l₂ = [] := by
  rcases l₁ with _ | ⟨x, l₁⟩
  · exact Or.inl rfl
  rcases l₂ with _ | ⟨y, l₂⟩
  · exact Or.inr rfl
  exfalso
  have hx : x = b := List.eq_of_mem_replicate (h₁.subset List.mem_cons_self)
  have hxc : x = c := List.eq_of_mem_replicate (h ▸ List.mem_append_left _ List.mem_cons_self)
  have hyc : y = c := List.eq_of_mem_replicate (h ▸ List.mem_append_right _ List.mem_cons_self)
  obtain ⟨t, rfl⟩ := h₂
  exact hq (congrArg some (hyc.trans (hxc.symm.trans hx)))

theorem replicate_infix_run (hq : q.head? ≠ some b) :
    List.replicate k c <:+: List.replicate r b ++ q ↔
      List.replicate k c <:+: List.replicate r b ∨ List.replicate k c <:+: q := by
  rw [List.infix_append_iff]
  constructor
  · rintro (h | h | ⟨l₁, l₂, he, h₁, h₂⟩)
    · exact Or.inl h
    · exact Or.inr h
    · rcases replicate_split hq he h₁ h₂ with rfl | rfl
      · rw [he]
        exact Or.inr h₂.isInfix
      · rw [he, List.append_nil]
        exact Or.inl h₁.isInfix
  · rintro (h | h)
    · exact Or.inl h
    · exact Or.inr (Or.inl h)

theorem replicate_suffix_run (hq : q.head? ≠ some b) (hne : q ≠ []) :
    List.replicate k c <:+ List.replicate r b ++ q ↔ List.replicate k c <:+ q := by
  refine ⟨fun h => ?_, fun h => h.trans (List.suffix_append _ q)⟩
  rcases Nat.le_total (List.replicate k c).length q.length with hle | hle
  · exact List.suffix_of_suffix_length_le h (List.suffix_append _ q) hle
  -- the copies reach into the run, so all of them lie behind it
  obtain ⟨l₁, hl₁⟩ := List.suffix_of_suffix_length_le (List.suffix_append _ q) h hle
  have h₁ : l₁ <:+ List.replicate r b := by
    obtain ⟨t, ht⟩ := h
    rw [← hl₁, ← List.append_assoc] at ht
    exact ⟨t, List.append_cancel_right ht⟩
  rcases replicate_split hq hl₁.symm h₁ (List.prefix_refl q) with rfl | rfl
  · exact ⟨[], hl₁.symm⟩
  · exact absurd rfl hne

/-! ## Entries that follow others -/

section
variable {p q : α → Bool} {l : List α} {a : α}

/-- Every entry of the kind `p` comes right after one of the kind `q`. -/
def Follows (p q : α → Bool) (l : List α) : Prop :=
  ∀ k a, l[k]? = some a → p a = true → ∃ j b, k = j + 1 ∧ l[j]? = some b ∧ q b = true

theorem follows_nil : Follows p q [] := fun k _ h => absurd h (by simp)

/-- One more entry. -/
theorem Follows.concat (h : Follows p q l) (ha : p a = true → ∃ b ∈ l.getLast?, q b = true) :
    Follows p q (l ++ [a]) := by
  intro k c hk hc
  rcases Nat.lt_or_ge k l.length with hlt | hge
  · rw [List.getElem?_append_left hlt] at hk
    obtain ⟨j, b, rfl, hj, hb⟩ := h k c hk hc
    exact ⟨j, b, rfl, by rwa [List.getElem?_append_left (Nat.lt_of_succ_lt hlt)], hb⟩
  · rw [List.getElem?_append_right hge] at hk
    obtain ⟨hzero, rfl⟩ : k - l.length = 0 ∧ a = c := by
      rcases hn : k - l.length with _ | n
      · rw [hn] at hk
        exact ⟨rfl, Option.some.inj hk⟩
      · rw [hn] at hk
        cases hk
    obtain ⟨b, hb, hqb⟩ := ha hc
    rw [Option.mem_def, List.getLast?_eq_getElem?] at hb
    have hlt := (List.getElem?_eq_some_iff.1 hb).1
    refine ⟨l.length - 1, b, by omega, ?_, hqb⟩
    rwa [List.getElem?_append_left hlt]

theorem Follows.of_concat (h : Follows p q (l ++ [a])) :
    Follows p q l ∧ (p a = true → ∃ b ∈ l.getLast?, q b = true) := by
  constructor
  · intro k c hk hc
    have hlt := (List.getElem?_eq_some_iff.1 hk).1
    obtain ⟨j, b, rfl, hj, hb⟩ := h k c (by rwa [List.getElem?_append_left hlt]) hc
    exact ⟨j, b, rfl, by rwa [List.getElem?_append_left (Nat.lt_of_succ_lt hlt)] at hj, hb⟩
  · intro ha
    obtain ⟨j, b, hj, hb, hqb⟩ := h l.length a (by simp) ha
    refine ⟨b, ?_, hqb⟩
    rw [List.getElem?_append_left (by omega)] at hb
    rwa [Option.mem_def, List.getLast?_eq_getElem?, hj, Nat.add_sub_cancel]

/-- **What follows is no more than what it follows.** -/
theorem Follows.countP_le (hpq : ∀ a, ¬(p a = true ∧ q a = true)) (h : Follows p q l) :
    l.countP p ≤ l.countP q := by
  -- an entry of the kind `q` at the end has nothing after it yet
  suffices hlast : l.countP p + (if ∃ b ∈ l.getLast?, q b = true then 1 else 0) ≤ l.countP q from
    Nat.le_of_add_right_le hlast
  induction l using List.reverseRecOn with
  | nil => simp
  | append_singleton l a ih =>
    obtain ⟨h, ha⟩ := h.of_concat
    have ih := ih h
    rw [List.countP_append, List.countP_append, List.countP_singleton, List.countP_singleton]
    have hq : (∃ b ∈ (l ++ [a]).getLast?, q b = true) ↔ q a = true := by simp
    simp only [hq]
    by_cases hpa : p a = true
    · rw [if_pos (ha hpa)] at ih
      rw [if_pos hpa, if_neg fun hqa => hpq a ⟨hpa, hqa⟩]
      exact ih
    · rw [if_neg hpa]
      split_ifs at ih ⊢ <;> omega

end

end Soroban
