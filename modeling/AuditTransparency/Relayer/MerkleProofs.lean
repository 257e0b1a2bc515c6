/-
  Merkle proofs: the siblings on the way up from a leaf.

  The position of the leaf says on which side every sibling belongs, if none is missing.  The last
  node of an odd layer has no sibling in the list, though, and is skipped: then all later siblings
  are taken one layer too low.

  * `Paired.climb_eq`: if no node on the way is skipped, the siblings lead to the root;
  * `Separating.climb_eq_iff`: without collisions they do so only then.
-/
import AuditTransparency.Relayer.MerkleTrees
import Mathlib.Algebra.Ring.Nat

namespace Merkle

variable {X : Type} (node : X → X → X)

/-! ## Siblings -/

def siblingIdx (idx : ℕ) : ℕ := if idx % 2 = 0 then idx + 1 else idx - 1

/-- The siblings on the way up from a position, as far as the layers have them. -/
def siblings (l : List X) (idx : ℕ) : List X :=
  match l with
  | [] => []
  | [_] => []
  | x :: y :: l =>
    ((x :: y :: l)[siblingIdx idx]?).toList ++ siblings (pairUp node (x :: y :: l)) (idx / 2)
termination_by l.length
decreasing_by
  rw [length_pairUp, List.length_cons, List.length_cons]
  omega

/-- One step up: an even position is on the left. -/
def climb1 (idx : ℕ) (x s : X) : X := if idx % 2 = 0 then node x s else node s x

/-- The way up with the given siblings. -/
def climb : ℕ → X → List X → X
  | _, x, [] => x
  | idx, x, s :: ss => climb (idx / 2) (climb1 node idx x s) ss

/-- The values on this way. -/
def climbed : ℕ → X → List X → List X
  | _, x, [] => [x]
  | idx, x, s :: ss => x :: climbed (idx / 2) (climb1 node idx x s) ss

/-- No node on the way up from a position is the unpaired last one of its layer: where it is the last
    one, it is the root or on the right. -/
def Paired (n idx : ℕ) : Prop :=
  ∀ k, idx / 2 ^ k = (n - 1) / 2 ^ k → (n - 1) / 2 ^ k = 0 ∨ (n - 1) / 2 ^ k % 2 = 1

/-- `x` has `a` below it, `d` steps down. -/
inductive Over (N : X → Prop) (a : X) : ℕ → X → Prop where
  | here : Over N a 0 a
  | left {d x y} : N x → N y → Over N a d x → Over N a (d + 1) (node x y)
  | right {d x y} : N x → N y → Over N a d y → Over N a (d + 1) (node x y)

variable {node} {N L : X → Prop} {l : List X} {a x y : X} {n d idx i : ℕ}

theorem siblings_singleton (x : X) (idx : ℕ) : siblings node [x] idx = [] := by rw [siblings]

theorem siblings_layer (hl : 2 ≤ l.length) (idx : ℕ) :
    siblings node l idx = (l[siblingIdx idx]?).toList ++ siblings node (pairUp node l) (idx / 2) := by
  match l, hl with
  | x :: y :: l, _ => rw [siblings]

theorem root?_layer (hl : 2 ≤ l.length) : root? node l = root? node (pairUp node l) := by
  match l, hl with
  | x :: y :: l, _ => rw [root?]

/-! ## Layers -/

theorem getElem?_pairUp (hx : l[2 * i]? = some x) (hy : l[2 * i + 1]? = some y) :
    (pairUp node l)[i]? = some (node x y) := by
  induction l using pairUp.induct generalizing i with
  | case1 => cases hx
  | case2 z => cases hy
  | case3 z w l ih =>
    cases i with
    | zero =>
      obtain rfl := Option.some.inj hx
      obtain rfl := Option.some.inj hy
      rfl
    | succ i => exact ih hx hy

/-- One layer up from a position. -/
theorem paired_layer (hn : 2 ≤ n) :
    Paired n idx ↔ (idx + 1 = n → n % 2 = 0) ∧ Paired ((n + 1) / 2) (idx / 2) := by
  have hlast : (n + 1) / 2 - 1 = (n - 1) / 2 := by omega
  have hup : ∀ m k, m / 2 / 2 ^ k = m / 2 ^ (k + 1) := by
    intro m k
    rw [Nat.div_div_eq_div_mul, Nat.pow_succ']
  constructor
  · intro h
    refine ⟨fun heq => ?_, fun k => ?_⟩
    · have h0 := h 0 (by rw [← heq, Nat.add_sub_cancel])
      rw [Nat.pow_zero, Nat.div_one] at h0
      omega
    · rw [hlast, hup, hup]
      exact h (k + 1)
  · rintro ⟨hbottom, h⟩ k
    cases k with
    | zero =>
      rw [Nat.pow_zero, Nat.div_one, Nat.div_one]
      omega
    | succ k =>
      have hk := h k
      rwa [hlast, hup, hup] at hk

/-! ## The way up -/

/-- **Siblings lead to the root** if no node on the way is unpaired. -/
theorem Paired.climb_eq (h : Paired l.length idx) (hx : l[idx]? = some x) :
    root? node l = some (climb node idx x (siblings node l idx)) := by
  induction l using root?.induct node generalizing idx x with
  | case1 => cases hx
  | case2 y =>
    rw [root?_singleton, siblings_singleton, climb]
    rw [List.getElem?_singleton] at hx
    split at hx
    · exact hx
    · cases hx
  | case3 y z l ih =>
    have hlen : 2 ≤ (y :: z :: l).length := Nat.le_add_left 2 _
    generalize y :: z :: l = layer at *
    obtain ⟨hlast, hup⟩ := (paired_layer hlen).1 h
    obtain ⟨hidx, -⟩ := List.getElem?_eq_some_iff.1 hx
    have hsib : siblingIdx idx < layer.length := by
      unfold siblingIdx
      split <;> omega
    obtain ⟨s, hs⟩ : ∃ s, layer[siblingIdx idx]? = some s := ⟨_, List.getElem?_eq_getElem hsib⟩
    rw [root?_layer hlen, siblings_layer hlen, hs, Option.toList_some, List.singleton_append, climb]
    refine ih (by rwa [length_pairUp]) ?_
    rcases Nat.mod_two_eq_zero_or_one idx with heven | hodd
    · rw [climb1, if_pos heven]
      rw [siblingIdx, if_pos heven] at hs
      have hdiv : 2 * (idx / 2) = idx := by omega
      exact getElem?_pairUp (by rw [hdiv, hx]) (by rw [hdiv, hs])
    · have hne : idx % 2 ≠ 0 := by omega
      rw [climb1, if_neg hne]
      rw [siblingIdx, if_neg hne] at hs
      have hdiv : 2 * (idx / 2) = idx - 1 := by omega
      have hdiv' : 2 * (idx / 2) + 1 = idx := by omega
      exact getElem?_pairUp (by rw [hdiv, hs]) (by rw [hdiv', hx])

/-- There is a sibling for every layer exactly if no node is unpaired. -/
theorem length_siblings (hidx : idx < l.length) :
    (siblings node l idx).length ≤ Nat.clog 2 l.length ∧
      ((siblings node l idx).length = Nat.clog 2 l.length ↔ Paired l.length idx) := by
  induction l using root?.induct node generalizing idx with
  | case1 => cases hidx
  | case2 y =>
    rw [siblings_singleton]
    refine ⟨Nat.zero_le _, fun _ k hk => .inl (by simp), fun _ => by simp⟩
  | case3 y z l ih =>
    have hlen : 2 ≤ (y :: z :: l).length := Nat.le_add_left 2 _
    generalize y :: z :: l = layer at *
    obtain ⟨hle, hiff⟩ := @ih (idx / 2) (by rw [length_pairUp]; omega)
    rw [length_pairUp] at hle hiff
    rw [siblings_layer hlen, List.length_append, clog_layer hlen, paired_layer hlen, ← hiff]
    by_cases hlast : idx + 1 = layer.length ∧ layer.length % 2 = 1
    · have hsib : layer[siblingIdx idx]? = none := by
        rw [List.getElem?_eq_none_iff, siblingIdx, if_pos (by omega)]
        omega
      rw [hsib, Option.toList_none, List.length_nil]
      omega
    · have hsib : siblingIdx idx < layer.length := by
        unfold siblingIdx
        split <;> omega
      rw [List.getElem?_eq_getElem hsib, Option.toList_some, List.length_singleton]
      omega

/-! ## Depth -/

/-- A leaf that is below the value of a perfect tree is below it by the height of the tree. -/
theorem Separating.depth_eq (h : Separating node N L) {t : Tree X} (ht : t.Perfect n) (hN : t.Within node N)
    (hL : ∀ b ∈ t.leaves, L b) (ha : L a) (hover : Over node N a d (t.eval node)) : d = n := by
  induction ht generalizing d with
  | @leaf b =>
    generalize hv : (Tree.leaf b).eval node = v at hover
    have hb : L v := hv ▸ hL b List.mem_cons_self
    cases hover with
    | here => rfl
    | left hx hy _ => exact absurd rfl (h.leaf hb hx hy)
    | right hx hy _ => exact absurd rfl (h.leaf hb hx hy)
  | @node n s t _ _ ihs iht =>
    have hLs : ∀ b ∈ s.leaves, L b := fun b hb => hL b (List.mem_append_left _ hb)
    have hLt : ∀ b ∈ t.leaves, L b := fun b hb => hL b (List.mem_append_right _ hb)
    generalize hv : (Tree.node s t).eval node = v at hover
    cases hover with
    | here => exact absurd hv.symm (h.leaf ha hN.2.1.eval hN.2.2.eval)
    | left hx hy hover =>
      obtain ⟨rfl, -⟩ := h.split hN.2.1.eval hN.2.2.eval hx hy hv
      rw [ihs hN.2.1 hLs hover]
    | right hx hy hover =>
      obtain ⟨-, rfl⟩ := h.split hN.2.1.eval hN.2.2.eval hx hy hv
      rw [iht hN.2.2 hLt hover]

theorem mem_climbed (idx : ℕ) (x : X) (ss : List X) : x ∈ climbed node idx x ss := by
  cases ss with
  | nil => exact List.mem_cons_self
  | cons s ss => exact List.mem_cons_self

/-- The way up goes up one step with every sibling. -/
theorem over_climb {ss : List X} (hN : ∀ y ∈ climbed node idx x ss, N y) (hs : ∀ s ∈ ss, N s)
    (h : Over node N a d x) : Over node N a (d + ss.length) (climb node idx x ss) := by
  induction ss generalizing d idx x with
  | nil => exact h
  | cons s ss ih =>
    have hx := hN x (mem_climbed _ _ _)
    have hup : Over node N a (d + 1) (climb1 node idx x s) := by
      unfold climb1
      split
      · exact .left hx (hs s List.mem_cons_self) h
      · exact .right (hs s List.mem_cons_self) hx h
    have hrec := ih (fun y hy => hN y (List.mem_cons_of_mem _ hy))
      (fun s hs' => hs s (List.mem_cons_of_mem _ hs')) hup
    rwa [Nat.add_assoc, Nat.add_comm 1] at hrec

/-- The siblings are nodes of the tree. -/
theorem occurs_siblings (hs : y ∈ siblings node l idx) : Occurs node l y := by
  induction l using root?.induct node generalizing idx with
  | case1 => rw [siblings] at hs; cases hs
  | case2 z => rw [siblings_singleton] at hs; cases hs
  | case3 z w l ih =>
    rw [siblings] at hs
    rcases List.mem_append.1 hs with hs | hs
    · exact .leaf (List.mem_of_getElem? (Option.mem_toList.1 hs))
    · exact .above (ih hs)

/-- **Siblings lead to the root only if** no node on the way is unpaired, without collisions. -/
theorem Separating.climb_eq_iff (h : Separating node N L) (hN : ∀ x, Occurs node l x → N x)
    (hup : ∀ y ∈ climbed node idx x (siblings node l idx), N y) (hL : ∀ b ∈ l, L b)
    (hx : l[idx]? = some x) :
    root? node l = some (climb node idx x (siblings node l idx)) ↔ Paired l.length idx := by
  refine ⟨fun heq => ?_, fun hp => hp.climb_eq hx⟩
  obtain ⟨hidx, -⟩ := List.getElem?_eq_some_iff.1 hx
  obtain ⟨t, ht⟩ := exists_treeOf (List.ne_nil_of_length_pos (Nat.zero_lt_of_lt hidx))
  rw [root?_eq_eval, ht] at heq
  have hover := over_climb hup (fun s hs => hN s (occurs_siblings hs)) (.here (N := N))
  rw [← Option.some.inj heq, Nat.zero_add] at hover
  have hdepth := h.depth_eq (treeOf_perfect ht) (treeOf_within hN ht) (treeOf_leaves hL ht)
    (hL x (List.mem_of_getElem? hx)) hover
  exact (length_siblings hidx).2.1 hdepth

end Merkle
