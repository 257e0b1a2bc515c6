/-
  A map that records under a key the position with that content, and a walk over the positions that
  removes the entries of other positions.

  The walk visits contents, not entries: it does not see an entry whose content is at no position, and
  of two positions with the same content it removes the entry of the one for the sake of the other
  (`foldl_visit_eq_some`).  It is exact when neither happens (`swept_iff`).
-/
import Mathlib.Data.Nat.Notation
import Mathlib.Logic.Function.Basic

namespace Soroban

variable {K V : Type} [DecidableEq K] (pos : V → ℕ) (content : ℕ → Option K) {m m' : K → Option V} {h : K} {v : V}

/-- A visit to position `i`. -/
def visit (m : K → Option V) (i : ℕ) : K → Option V :=
  match content i with
  | none => m
  | some h => if ∃ v ∈ m h, pos v ≠ i then Function.update m h none else m

theorem visit_eq_some {i : ℕ} :
    visit pos content m i h = some v ↔ m h = some v ∧ (content i = some h → pos v = i) := by
  unfold visit
  rcases content i with _ | d
  · simp
  dsimp only
  by_cases hd : h = d
  · subst hd
    by_cases hold : ∃ v ∈ m h, pos v ≠ i
    · rw [if_pos hold, Function.update_self]
      obtain ⟨w, hw, hne⟩ := hold
      refine iff_of_false (by simp) ?_
      rintro ⟨hv, hpos⟩
      rw [hw] at hv
      exact hne (Option.some.inj hv ▸ hpos rfl)
    · rw [if_neg hold]
      refine (and_iff_left_of_imp fun hv _ => ?_).symm
      by_contra hne
      exact hold ⟨v, hv, hne⟩
  · have hother : ¬some d = some h := fun he => hd (Option.some.inj he).symm
    simp only [hother, false_implies, and_true]
    split
    · rw [Function.update_of_ne hd]
    · rfl

/-- **What is left of the map** after the visits. -/
theorem foldl_visit_eq_some (l : List ℕ) :
    l.foldl (visit pos content) m h = some v ↔ m h = some v ∧ ∀ i ∈ l, content i = some h → pos v = i := by
  induction l generalizing m with
  | nil => simp
  | cons i l ih => rw [List.foldl_cons, ih, visit_eq_some, List.forall_mem_cons, and_assoc]

/-- The map was swept of exactly the entries that do not record their content. -/
structure Swept (m m' : K → Option V) : Prop where
  sound : ∀ h v, m' h = some v → content (pos v) = some h
  kept : ∀ h v, m h = some v → content (pos v) = some h → m' h = some v

/-- **The walk over all positions is exact** when the content of every entry is at some position, and
    at no other than the recorded one if it is there. -/
theorem swept_iff {l : List ℕ} (hl : ∀ i h, content i = some h → i ∈ l) :
    Swept pos content m (l.foldl (visit pos content) m) ↔
      ∀ h v, m h = some v → (∃ i, content i = some h) ∧
        (content (pos v) = some h → ∀ i, content i = some h → i = pos v) := by
  constructor
  · rintro ⟨hsound, hkept⟩ h v hv
    refine ⟨?_, fun hlive i hi => ?_⟩
    · by_contra hno
      refine hno ⟨pos v, hsound h v ((foldl_visit_eq_some pos content l).2 ⟨hv, fun i _ hi => ?_⟩)⟩
      exact absurd ⟨i, hi⟩ hno
    · exact (((foldl_visit_eq_some pos content l).1 (hkept h v hv hlive)).2 i (hl i h hi) hi).symm
  · intro hall
    constructor
    · intro h v hv
      obtain ⟨hv, hpos⟩ := (foldl_visit_eq_some pos content l).1 hv
      obtain ⟨⟨i, hi⟩, -⟩ := hall h v hv
      rw [hpos i (hl i h hi) hi]
      exact hi
    · intro h v hv hlive
      exact (foldl_visit_eq_some pos content l).2 ⟨hv, fun i _ hi => ((hall h v hv).2 hlive i hi).symm⟩

end Soroban
