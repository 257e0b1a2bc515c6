/-
  Merkle trees over a list of leaves, built layer by layer; the last node of an odd layer is
  paired with itself.

  Such a tree does not determine its leaves, as an odd layer can be completed by hand.  It does
  determine the first of them (`first_leaf_unique`): on the way down from the root along the left
  children, every node splits in one way only, and a leaf does not split.

  That nodes have no collisions is only ever assumed of the nodes that occur in trees of
  interest (`Binding`).
-/
import Mathlib.Data.List.Basic

namespace Merkle

variable {X : Type} (node : X → X → X)

/-- One layer up. -/
def pairUp : List X → List X
  | [] => []
  | [x] => [node x x]
  | x :: y :: l => node x y :: pairUp l

theorem length_pairUp (l : List X) : (pairUp node l).length = (l.length + 1) / 2 := by
  induction l using pairUp.induct with
  | case1 => simp [pairUp]
  | case2 x => simp [pairUp]
  | case3 x y l ih =>
    rw [pairUp, List.length_cons, List.length_cons, List.length_cons, ih]
    omega

/-- The root of a list of leaves; `none` if there are none. -/
def root? (l : List X) : Option X :=
  match l with
  | [] => none
  | [x] => some x
  | x :: y :: l => root? (pairUp node (x :: y :: l))
termination_by l.length
decreasing_by
  rw [length_pairUp, List.length_cons, List.length_cons]
  omega

theorem root?_singleton (x : X) : root? node [x] = some x := by rw [root?]

theorem root?_pair (x y : X) : root? node [x, y] = some (node x y) := by
  rw [root?, pairUp, pairUp, root?_singleton]

theorem isSome_root? {l : List X} (h : l ≠ []) : (root? node l).isSome := by
  induction l using root?.induct node with
  | case1 => exact absurd rfl h
  | case2 x => rw [root?_singleton]; rfl
  | case3 x y l ih =>
    rw [root?]
    exact ih (by rw [pairUp]; exact List.cons_ne_nil _ _)

/-- The nodes of a tree, its leaves included. -/
inductive Occurs : List X → X → Prop where
  | leaf {l x} : x ∈ l → Occurs l x
  | above {l x y z} : Occurs (pairUp node (x :: y :: l)) z → Occurs (x :: y :: l) z

/-- `x` is `a`, or has `a` below it at the left end. -/
inductive LeftAbove (N : X → Prop) (a : X) : X → Prop where
  | leaf : LeftAbove N a a
  | node {x y} : N x → N y → LeftAbove N a x → LeftAbove N a (node x y)

/-- The nodes `N` split in one way only, and the leaves `L` do not split. -/
structure Binding (N L : X → Prop) : Prop where
  split : ∀ {x y x' y'}, N x → N y → N x' → N y' → node x y = node x' y' → x = x'
  leaf : ∀ {a x y}, L a → N x → N y → a ≠ node x y

variable {node} {N L : X → Prop} {a b x y : X} {l m : List X}

/-- The way down from a node along the left children ends at one leaf. -/
theorem Binding.left_unique (h : Binding node N L) (ha : L a) (hb : L b) (hax : LeftAbove node N a x)
    (hbx : LeftAbove node N b x) : a = b := by
  induction hax with
  | leaf =>
    cases hbx with
    | leaf => rfl
    | node hx hy _ => exact absurd rfl (h.leaf ha hx hy)
  | node hx hy _ ih =>
    generalize hz : node _ _ = z at hbx
    cases hbx with
    | leaf => exact absurd hz.symm (h.leaf hb hx hy)
    | node hx' hy' hbx' =>
      obtain rfl := h.split hx hy hx' hy' hz
      exact ih hbx'

/-- The root has the first leaf at its left end. -/
theorem leftAbove_root? (hN : ∀ x, Occurs node l x → N x) (hl : l.head? = some b) (hb : LeftAbove node N a b)
    (hr : root? node l = some x) : LeftAbove node N a x := by
  induction l using root?.induct node generalizing b with
  | case1 => cases hl
  | case2 y =>
    rw [root?_singleton] at hr
    obtain rfl := Option.some.inj hl
    obtain rfl := Option.some.inj hr
    exact hb
  | case3 y z l ih =>
    obtain rfl := Option.some.inj hl
    rw [root?] at hr
    have hy : N y := hN y (.leaf List.mem_cons_self)
    have hz : N z := hN z (.leaf (List.mem_cons_of_mem _ List.mem_cons_self))
    exact ih (fun x hx => hN x (.above hx)) rfl (.node hy hz hb) hr

/-- **A root determines the first leaf.** -/
theorem Binding.first_leaf_unique (h : Binding node N L) (hl : ∀ x, Occurs node (a :: l) x → N x)
    (hm : ∀ x, Occurs node (b :: m) x → N x) (ha : L a) (hb : L b)
    (hroot : root? node (a :: l) = root? node (b :: m)) : a = b := by
  obtain ⟨x, hx⟩ := Option.isSome_iff_exists.1 (isSome_root? node (List.cons_ne_nil a l))
  refine h.left_unique ha hb (leftAbove_root? hl rfl .leaf hx) (leftAbove_root? hm rfl .leaf ?_)
  rw [← hroot, hx]

end Merkle
