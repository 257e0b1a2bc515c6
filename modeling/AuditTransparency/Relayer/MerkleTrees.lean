/-
  Merkle trees and what their roots determine.

  The nodes above a list of leaves are those of a perfect binary tree (`treeOf`): where an odd layer
  is completed, its last subtree occurs twice.  The leaves of this tree, from left to right, are the
  completed list (`completed`), which begins with the list itself.

  * `Separating.root_eq_iff`: without collisions the roots of two lists are equal exactly when
    their completed lists are;
  * `eq_of_completed_eq`: the completed list and the length determine the list.
-/
import AuditTransparency.Relayer.Merkle
import Mathlib.Algebra.Ring.Nat
import Mathlib.Data.Nat.Log

namespace Merkle

variable {X Y : Type}

/-! ## Trees -/

inductive Tree (X : Type) where
  | leaf (x : X)
  | node (s t : Tree X)

namespace Tree

/-- The value at the root. -/
def eval (node : X → X → X) : Tree X → X
  | leaf x => x
  | .node s t => node (s.eval node) (t.eval node)

/-- From left to right. -/
def leaves : Tree X → List X
  | leaf x => [x]
  | .node s t => s.leaves ++ t.leaves

/-- All leaves are `n` steps below the root. -/
inductive Perfect : ℕ → Tree X → Prop where
  | leaf {x} : Perfect 0 (.leaf x)
  | node {n s t} : Perfect n s → Perfect n t → Perfect (n + 1) (.node s t)

/-- The values of all subtrees are among `N`. -/
def Within (node : X → X → X) (N : X → Prop) : Tree X → Prop
  | leaf x => N x
  | .node s t => N (node (s.eval node) (t.eval node)) ∧ s.Within node N ∧ t.Within node N

variable {node : X → X → X} {N L : X → Prop} {n m : ℕ} {s t : Tree X}

theorem Within.eval (h : t.Within node N) : N (t.eval node) := by
  cases t with
  | leaf x => exact h
  | node s t => exact h.1

theorem Perfect.length_leaves (h : Perfect n t) : t.leaves.length = 2 ^ n := by
  induction h with
  | leaf => rfl
  | node _ _ ihs iht => rw [leaves, List.length_append, ihs, iht, Nat.pow_succ, Nat.mul_two]

/-- A perfect tree is determined by its leaves. -/
theorem Perfect.eq_of_leaves (hs : Perfect n s) (ht : Perfect m t) (h : s.leaves = t.leaves) : s = t := by
  induction hs generalizing m t with
  | @leaf x =>
    cases ht with
    | @leaf y => rw [(List.cons.inj h).1]
    | @node m s t hs ht =>
      have hlen := congrArg List.length h
      rw [(hs.node ht).length_leaves, Nat.pow_succ] at hlen
      have hpos := Nat.two_pow_pos m
      simp only [leaves, List.length_singleton] at hlen
      omega
  | @node n s₁ s₂ hs₁ hs₂ ih₁ ih₂ =>
    cases ht with
    | leaf =>
      have hlen := congrArg List.length h
      rw [(hs₁.node hs₂).length_leaves, Nat.pow_succ] at hlen
      have hpos := Nat.two_pow_pos n
      simp only [leaves, List.length_singleton] at hlen
      omega
    | @node m t₁ t₂ ht₁ ht₂ =>
      have hlen := congrArg List.length h
      rw [(hs₁.node hs₂).length_leaves, (ht₁.node ht₂).length_leaves] at hlen
      have hnm : n + 1 = m + 1 := Nat.pow_right_injective le_rfl hlen
      obtain ⟨h₁, h₂⟩ := List.append_inj h (by
        rw [hs₁.length_leaves, ht₁.length_leaves, Nat.succ.inj hnm])
      rw [ih₁ ht₁ h₁, ih₂ ht₂ h₂]

end Tree

/-! ## The tree of a list -/

/-- The tree above a list of leaves. -/
def treeOf (l : List X) : Option (Tree X) := root? Tree.node (l.map Tree.leaf)

/-- The leaves of this tree. -/
def completed (l : List X) : List X := ((treeOf l).map Tree.leaves).getD []

section
variable {node : X → X → X} {node' : Y → Y → Y} {f : X → Y} {l : List X} {x z : X} {n : ℕ}

theorem pairUp_map (hf : ∀ x y, f (node x y) = node' (f x) (f y)) (l : List X) :
    pairUp node' (l.map f) = (pairUp node l).map f := by
  induction l using pairUp.induct with
  | case1 => rfl
  | case2 x => rw [pairUp, List.map_singleton, List.map_singleton, pairUp, hf]
  | case3 x y l ih => rw [pairUp, List.map_cons, List.map_cons, pairUp, List.map_cons, ih, hf]

theorem root?_map (hf : ∀ x y, f (node x y) = node' (f x) (f y)) (l : List X) :
    root? node' (l.map f) = (root? node l).map f := by
  induction l using root?.induct node with
  | case1 => rw [root?, List.map_nil, root?]; rfl
  | case2 x => rw [root?, List.map_singleton, root?]; rfl
  | case3 x y l ih =>
    rw [root?, ← ih, ← pairUp_map hf, List.map_cons, List.map_cons, root?]

theorem Occurs.map (hf : ∀ x y, f (node x y) = node' (f x) (f y)) (h : Occurs node l x) :
    Occurs node' (l.map f) (f x) := by
  induction h with
  | leaf hx => exact .leaf (List.mem_map_of_mem hx)
  | above _ ih =>
    rw [← pairUp_map hf] at ih
    exact .above ih

theorem occurs_singleton {y : X} : Occurs node [x] y ↔ y = x := by
  refine ⟨fun h => ?_, fun h => .leaf (List.mem_singleton.2 h)⟩
  cases h with
  | leaf hy => exact List.mem_singleton.1 hy

theorem occurs_layer {y : X} :
    Occurs node (x :: y :: l) z ↔ z ∈ x :: y :: l ∨ Occurs node (pairUp node (x :: y :: l)) z := by
  constructor
  · intro h
    cases h with
    | leaf hz => exact .inl hz
    | above h => exact .inr h
  · rintro (hz | h)
    · exact .leaf hz
    · exact .above h

/-- The root occurs. -/
theorem occurs_root? (h : root? node l = some x) : Occurs node l x := by
  induction l using root?.induct node with
  | case1 => rw [root?] at h; cases h
  | case2 y =>
    rw [root?_singleton] at h
    obtain rfl := Option.some.inj h
    exact .leaf List.mem_cons_self
  | case3 y z l ih =>
    rw [root?] at h
    exact .above (ih h)

theorem mem_pairUp (h : z ∈ pairUp node l) : ∃ x ∈ l, ∃ y ∈ l, z = node x y := by
  induction l using pairUp.induct with
  | case1 => cases h
  | case2 x => exact ⟨x, List.mem_cons_self, x, List.mem_cons_self, List.mem_singleton.1 h⟩
  | case3 x y l ih =>
    rcases List.mem_cons.1 h with rfl | h
    · exact ⟨x, List.mem_cons_self, y, List.mem_cons_of_mem _ List.mem_cons_self, rfl⟩
    · obtain ⟨x', hx', y', hy', rfl⟩ := ih h
      exact ⟨x', List.mem_cons_of_mem _ (List.mem_cons_of_mem _ hx'),
        y', List.mem_cons_of_mem _ (List.mem_cons_of_mem _ hy'), rfl⟩

/-- The number of layers. -/
theorem clog_layer {n : ℕ} (h : 2 ≤ n) : Nat.clog 2 n = Nat.clog 2 ((n + 1) / 2) + 1 :=
  Nat.clog_of_two_le Nat.one_lt_two h

/-- What holds of the leaves, and passes on to the nodes one layer up, holds of the root. -/
theorem root?_layers {P : ℕ → X → Prop} (hnode : ∀ n x y, P n x → P n y → P (n + 1) (node x y))
    (hl : ∀ x ∈ l, P n x) (h : root? node l = some x) : P (n + Nat.clog 2 l.length) x := by
  induction l using root?.induct node generalizing n with
  | case1 => rw [root?] at h; cases h
  | case2 y =>
    rw [root?_singleton] at h
    obtain rfl := Option.some.inj h
    simpa using hl y List.mem_cons_self
  | case3 y z l ih =>
    rw [root?] at h
    have hup := ih (n := n + 1) (fun w hw => by
      obtain ⟨x', hx', y', hy', rfl⟩ := mem_pairUp hw
      exact hnode n x' y' (hl x' hx') (hl y' hy')) h
    rw [length_pairUp] at hup
    have hlen : 2 ≤ (y :: z :: l).length := Nat.le_add_left 2 _
    rwa [clog_layer hlen, ← Nat.add_assoc, Nat.add_right_comm]

end

variable {node : X → X → X} {N L : X → Prop} {l m : List X} {t : Tree X}

theorem root?_eq_eval (node : X → X → X) (l : List X) :
    root? node l = (treeOf l).map (Tree.eval node) := by
  have heval := @root?_map _ _ Tree.node node (Tree.eval node) (fun _ _ => rfl) (l.map Tree.leaf)
  rw [treeOf, ← heval, List.map_map]
  exact congrArg _ (List.map_id l).symm

theorem treeOf_perfect (h : treeOf l = some t) : t.Perfect (Nat.clog 2 l.length) := by
  have hp := root?_layers (P := Tree.Perfect) (n := 0) (fun _ _ _ => Tree.Perfect.node) (fun x hx => by
    obtain ⟨a, -, rfl⟩ := List.mem_map.1 hx
    exact .leaf) h
  rwa [List.length_map, Nat.zero_add] at hp

theorem treeOf_leaves (hl : ∀ a ∈ l, L a) (h : treeOf l = some t) : ∀ a ∈ t.leaves, L a := by
  refine root?_layers (P := fun _ t => ∀ a ∈ t.leaves, L a) (n := 0) (fun _ s t hs ht a ha => ?_)
    (fun x hx a ha => ?_) h
  · rcases List.mem_append.1 ha with ha | ha
    · exact hs a ha
    · exact ht a ha
  · obtain ⟨b, hb, rfl⟩ := List.mem_map.1 hx
    obtain rfl := List.mem_singleton.1 ha
    exact hl a hb

/-- The subtrees have the values that occur. -/
theorem Occurs.within {ts : List (Tree X)} (h : Occurs Tree.node ts t) (hts : ∀ s ∈ ts, s.Within node N)
    (hN : ∀ s, Occurs Tree.node ts s → N (s.eval node)) : t.Within node N := by
  induction h with
  | leaf hx => exact hts _ hx
  | above _ ih =>
    refine ih (fun s hs => ?_) fun s hs => hN s (.above hs)
    have hs' := hN s (.above (.leaf hs))
    obtain ⟨x, hx, y, hy, rfl⟩ := mem_pairUp hs
    exact ⟨hs', hts x hx, hts y hy⟩

theorem treeOf_within (hN : ∀ x, Occurs node l x → N x) (h : treeOf l = some t) : t.Within node N := by
  have heval : ∀ s, Occurs Tree.node (l.map Tree.leaf) s → N (s.eval node) := by
    intro s hs
    have hmap : Occurs node ((l.map Tree.leaf).map (Tree.eval node)) (s.eval node) := hs.map fun _ _ => rfl
    rw [List.map_map, show Tree.eval node ∘ Tree.leaf = id from rfl, List.map_id] at hmap
    exact hN _ hmap
  refine (occurs_root? h).within (fun s hs => ?_) heval
  obtain ⟨a, ha, rfl⟩ := List.mem_map.1 hs
  exact hN a (.leaf ha)

theorem completed_eq (h : treeOf l = some t) : completed l = t.leaves := by
  rw [completed, h]
  rfl

theorem exists_treeOf (h : l ≠ []) : ∃ t, treeOf l = some t :=
  Option.isSome_iff_exists.1 (isSome_root? _ fun hl => h (List.map_eq_nil_iff.1 hl))

/-! ## The completed list -/

theorem prefix_leaves_pairUp (ts : List (Tree X)) :
    ts.flatMap Tree.leaves <+: (pairUp Tree.node ts).flatMap Tree.leaves := by
  induction ts using pairUp.induct with
  | case1 => exact List.prefix_refl _
  | case2 x =>
    rw [pairUp, List.flatMap_singleton, List.flatMap_singleton]
    exact List.prefix_append _ _
  | case3 x y l ih =>
    rw [pairUp, List.flatMap_cons, List.flatMap_cons, List.flatMap_cons, Tree.leaves, List.append_assoc]
    exact (List.prefix_append_right_inj _).2 ((List.prefix_append_right_inj _).2 ih)

theorem prefix_leaves_root? {ts : List (Tree X)} (h : root? Tree.node ts = some t) :
    ts.flatMap Tree.leaves <+: t.leaves := by
  induction ts using root?.induct Tree.node with
  | case1 => exact List.nil_prefix
  | case2 s =>
    rw [root?_singleton] at h
    obtain rfl := Option.some.inj h
    simp
  | case3 x y l ih =>
    rw [root?] at h
    exact (prefix_leaves_pairUp _).trans (ih h)

/-- The completed list begins with the list. -/
theorem prefix_completed (l : List X) : l <+: completed l := by
  rcases eq_or_ne l [] with rfl | hl
  · exact List.nil_prefix
  · obtain ⟨t, ht⟩ := exists_treeOf hl
    have hpre := prefix_leaves_root? ht
    rwa [List.flatMap_map, show (fun a : X => (Tree.leaf a).leaves) = fun a => [a] from rfl,
      List.flatMap_singleton', ← completed_eq ht] at hpre

/-- The completed list and the length determine the list. -/
theorem eq_of_completed_eq (h : completed l = completed m) (hlen : l.length = m.length) : l = m :=
  (List.prefix_of_prefix_length_le (prefix_completed l) (h ▸ prefix_completed m) hlen.le).eq_of_length hlen

/-! ## Roots -/

/-- The nodes `N` split in one way only, and the leaves `L` do not split. -/
structure Separating (node : X → X → X) (N L : X → Prop) : Prop where
  split : ∀ {x y x' y'}, N x → N y → N x' → N y' → node x y = node x' y' → x = x' ∧ y = y'
  leaf : ∀ {a x y}, L a → N x → N y → a ≠ node x y

theorem Separating.mono {N' L' : X → Prop} (h : Separating node N L) (hN : ∀ x, N' x → N x)
    (hL : ∀ a, L' a → L a) : Separating node N' L' where
  split hx hy hx' hy' := h.split (hN _ hx) (hN _ hy) (hN _ hx') (hN _ hy')
  leaf ha hx hy := h.leaf (hL _ ha) (hN _ hx) (hN _ hy)

/-- A tree is determined by its value. -/
theorem Separating.eval_injective (h : Separating node N L) {s t : Tree X} (hs : s.Within node N)
    (ht : t.Within node N) (hls : ∀ a ∈ s.leaves, L a) (hlt : ∀ a ∈ t.leaves, L a)
    (heq : s.eval node = t.eval node) : s = t := by
  induction s generalizing t with
  | leaf x =>
    cases t with
    | leaf y => exact congrArg Tree.leaf heq
    | node t₁ t₂ => exact absurd heq (h.leaf (hls x List.mem_cons_self) ht.2.1.eval ht.2.2.eval)
  | node s₁ s₂ ih₁ ih₂ =>
    cases t with
    | leaf y => exact absurd heq.symm (h.leaf (hlt y List.mem_cons_self) hs.2.1.eval hs.2.2.eval)
    | node t₁ t₂ =>
      obtain ⟨h₁, h₂⟩ := h.split hs.2.1.eval hs.2.2.eval ht.2.1.eval ht.2.2.eval heq
      rw [ih₁ hs.2.1 ht.2.1 (fun a ha => hls a (List.mem_append_left _ ha))
          (fun a ha => hlt a (List.mem_append_left _ ha)) h₁,
        ih₂ hs.2.2 ht.2.2 (fun a ha => hls a (List.mem_append_right _ ha))
          (fun a ha => hlt a (List.mem_append_right _ ha)) h₂]

/-- **Roots and completed lists.**  Without collisions, two lists have one root exactly when they are
    completed to one list. -/
theorem Separating.root_eq_iff (h : Separating node N L) (hl : l ≠ []) (hm : m ≠ [])
    (hNl : ∀ x, Occurs node l x → N x) (hNm : ∀ x, Occurs node m x → N x) (hLl : ∀ a ∈ l, L a)
    (hLm : ∀ a ∈ m, L a) : root? node l = root? node m ↔ completed l = completed m := by
  obtain ⟨s, hs⟩ := exists_treeOf hl
  obtain ⟨t, ht⟩ := exists_treeOf hm
  rw [root?_eq_eval, root?_eq_eval, hs, ht, completed_eq hs, completed_eq ht]
  constructor
  · intro heq
    rw [h.eval_injective (treeOf_within hNl hs) (treeOf_within hNm ht) (treeOf_leaves hLl hs)
      (treeOf_leaves hLm ht) (Option.some.inj heq)]
  · intro heq
    rw [(treeOf_perfect hs).eq_of_leaves (treeOf_perfect ht) heq]

end Merkle
