/-
  Merkle trees over a list of leaves, built level by level; the last node of an odd level is
  promoted to the next one as it is.

  * `root?`: the root;
  * `steps`: what stands beside the nodes above a leaf, and on which side;
  * `climb_steps`: from a leaf its steps lead to the root, for any way to combine two nodes.
-/
import Mathlib.Data.List.Basic

namespace PromotedTree

variable {X : Type} (node : X → X → X)

/-- The next level. -/
def pairUp : List X → List X
  | [] => []
  | [x] => [x]
  | x :: y :: l => node x y :: pairUp l

theorem length_pairUp (l : List X) : (pairUp node l).length = (l.length + 1) / 2 := by
  induction l using pairUp.induct with
  | case1 => simp [pairUp]
  | case2 x => simp [pairUp]
  | case3 x y l ih =>
    rw [pairUp, List.length_cons, List.length_cons, List.length_cons, ih]
    omega

/-- The root of a list of leaves; `none` if there are none. -/
def root? (l : List X) : Option X :=
  match l with
  | [] => none
  | [x] => some x
  | x :: y :: l => root? (pairUp node (x :: y :: l))
termination_by l.length
decreasing_by
  rw [length_pairUp, List.length_cons, List.length_cons]
  omega

/-- What stands beside the node `i` of a level, with whether the node is on the left of it; nothing if the node
    is promoted. -/
def beside (l : List X) (i : ℕ) : List (Bool × X) :=
  if i % 2 = 0 then (l[i + 1]?).toList.map (true, ·) else (l[i - 1]?).toList.map (false, ·)

/-- What stands beside the nodes above the leaf `i`, from level to level. -/
def steps (l : List X) (i : ℕ) : List (Bool × X) :=
  match l with
  | [] => []
  | [_] => []
  | x :: y :: l => beside (x :: y :: l) i ++ steps (pairUp node (x :: y :: l)) (i / 2)
termination_by l.length
decreasing_by
  rw [length_pairUp, List.length_cons, List.length_cons]
  omega

/-- The node that is reached from `x`. -/
def climb (x : X) (path : List (Bool × X)) : X :=
  path.foldl (fun x s => if s.1 then node x s.2 else node s.2 x) x

variable {node} {l : List X} {i : ℕ} {x : X}

theorem climb_append (x : X) (p q : List (Bool × X)) : climb node x (p ++ q) = climb node (climb node x p) q :=
  List.foldl_append

theorem beside_cons (x y : X) (l : List X) (i : ℕ) : beside (x :: y :: l) (i + 2) = beside l i := by
  unfold beside
  rw [Nat.add_mod_right]
  split_ifs with hi
  · rfl
  · obtain ⟨j, rfl⟩ : ∃ j, i = j + 1 := ⟨i - 1, by omega⟩
    rfl

/-- **One level up.** -/
theorem getElem?_pairUp (h : l[i]? = some x) : (pairUp node l)[i / 2]? = some (climb node x (beside l i)) := by
  induction l using pairUp.induct generalizing i with
  | case1 => cases h
  | case2 y =>
    cases i with
    | zero => exact h
    | succ i => cases h
  | case3 y z l ih =>
    match i with
    | 0 =>
      obtain rfl := Option.some.inj h
      rfl
    | 1 =>
      obtain rfl := Option.some.inj h
      rfl
    | i + 2 =>
      have hdiv : (i + 2) / 2 = i / 2 + 1 := by omega
      rw [pairUp, hdiv, List.getElem?_cons_succ, beside_cons]
      exact ih h

/-- **A leaf is below the root.** -/
theorem climb_steps (h : l[i]? = some x) : root? node l = some (climb node x (steps node l i)) := by
  induction l using root?.induct node generalizing i x with
  | case1 => cases h
  | case2 y =>
    cases i with
    | zero =>
      rw [root?, steps]
      exact h
    | succ i => cases h
  | case3 y z l ih => rw [root?, steps, climb_append, ih (getElem?_pairUp h)]

end PromotedTree
