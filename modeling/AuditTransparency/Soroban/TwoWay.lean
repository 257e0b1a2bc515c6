/-
  Soroban contracts — an index kept in two copies.

  A `TwoWay` index lists entries under keys and keeps, with every entry, the keys it
  has been listed under.  A list has a capacity: what exceeds it is dropped, the
  oldest first.

  * `Consistent`: no list repeats an entry, and an entry knows every key it is listed
    under; kept by `enter` for an entry that is not in the index, and by `remove`;
  * `Complete`: an entry is listed under every key it knows; kept as well as long as
    nothing is dropped (`Action.Roomy`).
-/
import AuditTransparency.Soroban.Run
import Mathlib.Data.List.DropRight
import Mathlib.Data.List.Nodup
import Mathlib.Logic.Function.Basic

namespace Soroban

/-- For every key its entries, oldest first, and for every entry its keys. -/
@[ext] structure TwoWay (K E : Type) where
  entries : K → List E
  keys : E → List K

namespace TwoWay
variable {K E : Type}

def empty : TwoWay K E := ⟨fun _ => [], fun _ => []⟩

/-- No list repeats an entry, and an entry knows the keys it is listed under. -/
structure Consistent (x : TwoWay K E) : Prop where
  nodup : ∀ k, (x.entries k).Nodup
  keys : ∀ k, ∀ e ∈ x.entries k, k ∈ x.keys e

/-- An entry is listed under every key it knows. -/
def Complete (x : TwoWay K E) : Prop := ∀ e, ∀ k ∈ x.keys e, e ∈ x.entries k

theorem consistent_empty : (empty : TwoWay K E).Consistent where
  nodup _ := List.nodup_nil
  keys _ _ h := by cases h

theorem complete_empty : (empty : TwoWay K E).Complete := fun _ _ h => by cases h

/-- An entry that knows no key is on no list. -/
theorem Consistent.notMem {x : TwoWay K E} {e : E} (h : x.Consistent) (hnew : x.keys e = []) (k : K) :
    e ∉ x.entries k := by
  intro he
  have hk := h.keys k e he
  rw [hnew] at hk
  cases hk

theorem mem_of_mem_rtake {l : List E} {e : E} {n : ℕ} (h : e ∈ l.rtake n) : e ∈ l :=
  List.mem_of_mem_drop h

/-- A list with room loses nothing. -/
theorem rtake_eq_self {l : List E} {n : ℕ} (h : l.length ≤ n) : l.rtake n = l := by
  rw [List.rtake, Nat.sub_eq_zero_of_le h, List.drop_zero]

variable [DecidableEq K] [DecidableEq E]

/-! ## Lists -/

/-- Lists `e` under `k`, and drops the oldest entries beyond `n`. -/
def list (x : TwoWay K E) (e : E) (n : ℕ) (k : K) : TwoWay K E :=
  { x with entries := Function.update x.entries k ((x.entries k ++ [e]).rtake n) }

/-- Takes `e` off the list of `k`. -/
def unlist (x : TwoWay K E) (e : E) (k : K) : TwoWay K E :=
  { x with entries := Function.update x.entries k ((x.entries k).filter (· ≠ e)) }

/-- Lists `e` under all of `ks`. -/
def enter (x : TwoWay K E) (e : E) (ks : List K) (n : ℕ) : TwoWay K E :=
  { entries := (ks.foldl (fun x k => x.list e n k) x).entries
    keys := Function.update x.keys e ks }

/-- Takes `e` off every list. -/
def remove (x : TwoWay K E) (e : E) : TwoWay K E :=
  { entries := ((x.keys e).foldl (fun x k => x.unlist e k) x).entries
    keys := Function.update x.keys e [] }

section
variable {x : TwoWay K E} {e e' : E} {k : K} {ks : List K} {n : ℕ}

omit [DecidableEq E] in
theorem keys_foldl_list : (ks.foldl (fun x k => x.list e n k) x).keys = x.keys := by
  induction ks generalizing x with
  | nil => rfl
  | cons k ks ih => exact ih

theorem keys_foldl_unlist : (ks.foldl (fun x k => x.unlist e k) x).keys = x.keys := by
  induction ks generalizing x with
  | nil => rfl
  | cons k ks ih => exact ih

/-- A list after an entry under different keys. -/
theorem entries_enter (hks : ks.Nodup) :
    (x.enter e ks n).entries k = if k ∈ ks then (x.entries k ++ [e]).rtake n else x.entries k := by
  show (ks.foldl (fun x k => x.list e n k) x).entries k = _
  induction ks generalizing x with
  | nil => rfl
  | cons j ks ih =>
    obtain ⟨hj, hks⟩ := List.nodup_cons.1 hks
    rw [List.foldl_cons, ih hks]
    by_cases hk : k = j
    · subst hk
      simp [hj, list]
    · simp [hk, list]

/-- A list after a removal. -/
theorem entries_remove :
    (x.remove e).entries k = if k ∈ x.keys e then (x.entries k).filter (· ≠ e) else x.entries k := by
  show ((x.keys e).foldl (fun x k => x.unlist e k) x).entries k = _
  generalize x.keys e = ks
  induction ks generalizing x with
  | nil => rfl
  | cons j ks ih =>
    rw [List.foldl_cons, ih]
    by_cases hk : k = j
    · subst hk
      simp [unlist]
    · simp [hk, unlist]

@[simp] theorem keys_enter_self : (x.enter e ks n).keys e = ks := Function.update_self ..

theorem keys_enter_of_ne (h : e' ≠ e) : (x.enter e ks n).keys e' = x.keys e' := Function.update_of_ne h ..

@[simp] theorem keys_remove_self : (x.remove e).keys e = [] := Function.update_self ..

theorem keys_remove_of_ne (h : e' ≠ e) : (x.remove e).keys e' = x.keys e' := Function.update_of_ne h ..

/-! ## Consistency -/

namespace Consistent

theorem enter (h : x.Consistent) (hnew : x.keys e = []) (hks : ks.Nodup) :
    (x.enter e ks n).Consistent where
  nodup k := by
    rw [entries_enter hks]
    split_ifs
    · have hnodup : (x.entries k ++ [e]).Nodup := by
        rw [List.nodup_append]
        refine ⟨h.nodup k, List.nodup_singleton e, ?_⟩
        rintro a ha b hb rfl
        obtain rfl := List.mem_singleton.1 hb
        exact h.notMem hnew k ha
      exact hnodup.sublist (List.drop_sublist ..)
    · exact h.nodup k
  keys k e' he' := by
    rw [entries_enter hks] at he'
    by_cases hee : e' = e
    · subst hee
      rw [keys_enter_self]
      by_contra hk
      rw [if_neg hk] at he'
      exact h.notMem hnew k he'
    · rw [keys_enter_of_ne hee]
      refine h.keys k e' ?_
      split_ifs at he' with hk
      · exact (List.mem_append.1 (mem_of_mem_rtake he')).resolve_right (by simpa using hee)
      · exact he'

theorem remove (h : x.Consistent) : (x.remove e).Consistent where
  nodup k := by
    rw [entries_remove]
    split_ifs
    · exact (h.nodup k).filter _
    · exact h.nodup k
  keys k e' he' := by
    rw [entries_remove] at he'
    split_ifs at he' with hk
    · obtain ⟨hmem, hne⟩ := List.mem_filter.1 he'
      rw [keys_remove_of_ne (of_decide_eq_true hne)]
      exact h.keys k e' hmem
    · have hne : e' ≠ e := by
        rintro rfl
        exact hk (h.keys k e' he')
      rw [keys_remove_of_ne hne]
      exact h.keys k e' he'

end Consistent

/-! ## Completeness -/

namespace Complete

theorem enter (h : x.Complete) (hks : ks.Nodup) (hroom : ∀ k ∈ ks, (x.entries k).length < n) :
    (x.enter e ks n).Complete := by
  have hlisted : ∀ k, (x.enter e ks n).entries k =
      if k ∈ ks then x.entries k ++ [e] else x.entries k := by
    intro k
    rw [entries_enter hks]
    split_ifs with hk
    · refine rtake_eq_self ?_
      have := hroom k hk
      rw [List.length_append, List.length_singleton]
      omega
    · rfl
  intro e' k hk
  rw [hlisted]
  by_cases hee : e' = e
  · subst hee
    rw [keys_enter_self] at hk
    rw [if_pos hk]
    exact List.mem_append_right _ (List.mem_singleton_self _)
  · rw [keys_enter_of_ne hee] at hk
    split_ifs
    · exact List.mem_append_left _ (h e' k hk)
    · exact h e' k hk

theorem remove (h : x.Complete) : (x.remove e).Complete := by
  intro e' k hk
  have hne : e' ≠ e := by
    rintro rfl
    rw [keys_remove_self] at hk
    cases hk
  rw [keys_remove_of_ne hne] at hk
  rw [entries_remove]
  split_ifs
  · exact List.mem_filter.2 ⟨h e' k hk, decide_eq_true hne⟩
  · exact h e' k hk

end Complete

end

/-! ## Actions -/

/-- What can be done to the index. -/
inductive Action (K E : Type) where
  | enter (e : E) (ks : List K) (n : ℕ)
  | remove (e : E)

/-- Carries out an action. -/
def apply (x : TwoWay K E) : Action K E → TwoWay K E
  | .enter e ks n => x.enter e ks n
  | .remove e => x.remove e

/-- Carries out one action after the other. -/
def applyAll (x : TwoWay K E) (as : List (Action K E)) : TwoWay K E := as.foldl apply x

/-- The actions, each with the index it is carried out on. -/
def stages (x : TwoWay K E) : List (Action K E) → List (TwoWay K E × Action K E)
  | [] => []
  | a :: as => (x, a) :: stages (x.apply a) as

/-- One action. -/
def Step (x : TwoWay K E) (a : Action K E) (x' : TwoWay K E) : Prop := x' = x.apply a

/-- What is entered is new, under different keys. -/
def Action.New (x : TwoWay K E) : Action K E → Prop
  | .enter e ks _ => x.keys e = [] ∧ ks.Nodup
  | .remove _ => True

/-- There is room for what is entered. -/
def Action.Roomy (x : TwoWay K E) : Action K E → Prop
  | .enter _ ks n => ∀ k ∈ ks, (x.entries k).length < n
  | .remove _ => True

section
variable {x y : TwoWay K E} {as bs : List (Action K E)} {tr : List (TwoWay K E × Action K E)}

theorem stages_append : stages x (as ++ bs) = stages x as ++ stages (x.applyAll as) bs := by
  induction as generalizing x with
  | nil => rfl
  | cons a as ih =>
    rw [List.cons_append, stages, stages, ih]
    rfl

/-- The stages of actions are a run. -/
theorem run_stages (x : TwoWay K E) (as : List (Action K E)) :
    Run Step x (stages x as) (x.applyAll as) := by
  induction as generalizing x with
  | nil => exact .init
  | cons a as ih => exact Run.append (.snoc .init rfl) (ih (x.apply a))

/-- **Consistency of a run.** -/
theorem consistent_of_run (h : Run Step empty tr x) (hnew : ∀ p ∈ tr, p.2.New p.1) : x.Consistent := by
  refine h.invariant (C := fun x a => a.New x) (I := Consistent) consistent_empty ?_ hnew
  rintro x a x' ha rfl hx
  cases a with
  | enter e ks n => exact hx.enter ha.1 ha.2
  | remove e => exact hx.remove

/-- **Completeness of a run** in which nothing is dropped. -/
theorem complete_of_run (h : Run Step empty tr x) (hnew : ∀ p ∈ tr, p.2.New p.1)
    (hroom : ∀ p ∈ tr, p.2.Roomy p.1) : x.Complete := by
  refine h.invariant (C := fun x a => a.New x ∧ a.Roomy x) (I := Complete) complete_empty ?_
    fun p hp => ⟨hnew p hp, hroom p hp⟩
  rintro x a x' ⟨ha, hr⟩ rfl hx
  cases a with
  | enter e ks n => exact hx.enter ha.2 hr
  | remove e => exact hx.remove

end

end TwoWay

end Soroban
