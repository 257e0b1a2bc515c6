/-
  CrossChainSynchronizer — Merkle proofs, and the batches that have one root
  (`computeMerkleRoot` and `buildMerkleProof` of `bridge/relayer/zkProofGenerator.ts`).

  The last node of an odd layer is paired with itself, but has no sibling in a proof.

  * `rootOf_buildMerkleProof`: a proof leads to the root if no node above its leaf is such a last
    node, and, where the hash has no collisions, only then;
  * `computeMerkleRoot_eq_iff`: without collisions, batches have one root exactly if pairing last
    nodes with themselves completes them to the same leaves; batches of one length are then equal.
-/
import AuditTransparency.Relayer.MerkleProofs
import AuditTransparency.Relayer.Synchronizer

namespace CrossChainSynchronizer

open Merkle (Paired Separating Occurs completed)

/-! ## Proofs -/

def isHexDigit (c : Char) : Bool :=
  ('0' ≤ c && c ≤ '9') || ('a' ≤ c && c ≤ 'f') || ('A' ≤ c && c ≤ 'F')

def isBytes32 (hex : Text) : Bool :=
  let stripped := match hex with
    | '0' :: 'x' :: t => t
    | '0' :: 'X' :: t => t
    | t => t
  stripped.length == 64 && stripped.all isHexDigit

def buildMerkleProof (H : Host) (leaves : List Text) (index : ℕ) : List Text :=
  (Merkle.siblings (node H) (leaves.map normaliseHash) index).map fun s => '0' :: 'x' :: s

/-- The root that a leaf and its siblings lead to; the bits of the index say on which side. -/
def rootOf (H : Host) (leaf : Text) (index : ℕ) (proof : List Text) : Text :=
  '0' :: 'x' :: Merkle.climb (node H) index (normaliseHash leaf) (proof.map stripPrefix)

/-- The leaves that a root is computed from; the root of no leaves is a leaf itself. -/
def batch (leaves : List Text) : List Text :=
  if leaves = [] then [List.replicate 64 '0'] else leaves.map normaliseHash

/-- The nodes of a tree and those on the way up with a proof: no two of them have the hash of another
    two, and no leaf is such a hash. -/
def ProofCollisionless (H : Host) (leaves : List Text) (index : ℕ) (leaf : Text) : Prop :=
  Separating (node H)
    (fun x => Occurs (node H) (leaves.map normaliseHash) x ∨
      x ∈ Merkle.climbed (node H) index (normaliseHash leaf)
        (Merkle.siblings (node H) (leaves.map normaliseHash) index))
    (· ∈ leaves.map normaliseHash)

/-- The nodes of two trees: no two of them have the hash of another two, and no leaf is such a hash. -/
def BatchCollisionless (H : Host) (leaves leaves' : List Text) : Prop :=
  Separating (node H) (fun x => Occurs (node H) (batch leaves) x ∨ Occurs (node H) (batch leaves') x)
    fun a => a ∈ batch leaves ∨ a ∈ batch leaves'

variable {H : Host} {leaves leaves' : List Text} {leaf : Text} {index : ℕ}

theorem batch_ne_nil (leaves : List Text) : batch leaves ≠ [] := by
  unfold batch
  split
  · exact List.cons_ne_nil _ _
  · next h => exact fun h' => h (List.map_eq_nil_iff.1 h')

theorem computeMerkleRoot_batch (H : Host) (leaves : List Text) :
    ∃ root, Merkle.root? (node H) (batch leaves) = some root ∧
      computeMerkleRoot H leaves = '0' :: 'x' :: root := by
  rcases eq_or_ne leaves [] with rfl | hne
  · refine ⟨List.replicate 64 '0', Merkle.root?_singleton _ _, ?_⟩
    rw [computeMerkleRoot, List.map_nil, Merkle.root?]
    rfl
  · obtain ⟨root, hroot⟩ := Option.isSome_iff_exists.1 (Merkle.isSome_root? (node H) (batch_ne_nil leaves))
    refine ⟨root, hroot, ?_⟩
    rw [batch, if_neg hne] at hroot
    rw [computeMerkleRoot, hroot]

theorem rootOf_eq_iff (H : Host) (leaves : List Text) (hl : leaves[index]? = some leaf) :
    rootOf H leaf index (buildMerkleProof H leaves index) = computeMerkleRoot H leaves ↔
      Merkle.root? (node H) (leaves.map normaliseHash) =
        some (Merkle.climb (node H) index (normaliseHash leaf)
          (Merkle.siblings (node H) (leaves.map normaliseHash) index)) := by
  have hne : leaves ≠ [] := by
    rintro rfl
    cases hl
  have hstrip : ∀ ss : List Text, (ss.map fun s => '0' :: 'x' :: s).map stripPrefix = ss := by
    intro ss
    rw [List.map_map]
    exact List.map_id ss
  obtain ⟨root, hroot, heq⟩ := computeMerkleRoot_batch H leaves
  rw [batch, if_neg hne] at hroot
  rw [heq, hroot, rootOf, buildMerkleProof, hstrip, Option.some.injEq, List.cons.injEq, List.cons.injEq]
  exact ⟨fun h => h.2.2.symm, fun h => ⟨rfl, rfl, h.symm⟩⟩

/-- **Proofs lead to the root** if no node on the way up is the unpaired last one of an odd layer, and,
    where the hash has no collisions, only then. -/
theorem rootOf_buildMerkleProof (H : Host) (leaves : List Text) (hl : leaves[index]? = some leaf) :
    (Paired leaves.length index →
      rootOf H leaf index (buildMerkleProof H leaves index) = computeMerkleRoot H leaves) ∧
    (ProofCollisionless H leaves index leaf →
      (rootOf H leaf index (buildMerkleProof H leaves index) = computeMerkleRoot H leaves ↔
        Paired leaves.length index)) := by
  have hx : (leaves.map normaliseHash)[index]? = some (normaliseHash leaf) := by
    rw [List.getElem?_map, hl]
    rfl
  rw [rootOf_eq_iff H leaves hl, show leaves.length = (leaves.map normaliseHash).length
    from (List.length_map _).symm]
  constructor
  · intro hp
    exact hp.climb_eq hx
  · intro hfree
    exact hfree.climb_eq_iff (fun x hx => .inl hx) (fun y hy => .inr hy) (fun b hb => hb) hx

/-- **What a root determines.**  Without collisions, two batches have one root exactly if they are
    completed to the same leaves, and batches of one length are then the same. -/
theorem computeMerkleRoot_eq_iff (hfree : BatchCollisionless H leaves leaves') :
    (computeMerkleRoot H leaves = computeMerkleRoot H leaves' ↔
      completed (batch leaves) = completed (batch leaves')) ∧
    (computeMerkleRoot H leaves = computeMerkleRoot H leaves' → leaves.length = leaves'.length →
      leaves.map normaliseHash = leaves'.map normaliseHash) := by
  obtain ⟨root, hroot, heq⟩ := computeMerkleRoot_batch H leaves
  obtain ⟨root', hroot', heq'⟩ := computeMerkleRoot_batch H leaves'
  have hiff : computeMerkleRoot H leaves = computeMerkleRoot H leaves' ↔
      completed (batch leaves) = completed (batch leaves') := by
    rw [← hfree.root_eq_iff (batch_ne_nil leaves) (batch_ne_nil leaves') (fun x hx => .inl hx)
      (fun x hx => .inr hx) (fun a ha => .inl ha) (fun a ha => .inr ha), hroot, hroot', heq, heq',
      Option.some.injEq, List.cons.injEq, List.cons.injEq]
    exact ⟨fun h => h.2.2, fun h => ⟨rfl, rfl, h⟩⟩
  refine ⟨hiff, fun hroots hlen => ?_⟩
  rcases eq_or_ne leaves [] with rfl | hne
  · rw [List.length_nil] at hlen
    rw [List.length_eq_zero_iff.1 hlen.symm]
  · have hne' : leaves' ≠ [] := by
      rintro rfl
      exact hne (List.length_eq_zero_iff.1 hlen)
    have hcomp := hiff.1 hroots
    rw [batch, batch, if_neg hne, if_neg hne'] at hcomp
    exact Merkle.eq_of_completed_eq hcomp (by rw [List.length_map, List.length_map, hlen])

/-! ## Three leaves -/

/-- A hash function that keeps the beginnings of both halves. -/
def halvesHost : Host := ⟨fun t => 'f' :: ((t.drop 64).take 31 ++ t.take 32)⟩

def word (c : Char) : Text := List.replicate 64 c

/-- The nodes above three leaves, and the way up with the proof for the last one. -/
def threeNodes : List Text :=
  let left := node halvesHost (word '0') (word '1')
  let right := node halvesHost (word '2') (word '2')
  [word '0', word '1', word '2', left, right, node halvesHost left right, node halvesHost (word '2') left]

theorem separating_halvesHost {ns ls : List Text} (hlen : ∀ x ∈ ns, x.length = 64)
    (htake : ∀ x ∈ ns, ∀ y ∈ ns, x.take 31 = y.take 31 → x = y) (hls : ∀ a ∈ ls, a.head? ≠ some 'f') :
    Separating (node halvesHost) (· ∈ ns) (· ∈ ls) := by
  have hnode : ∀ x ∈ ns, ∀ y, node halvesHost x y = 'f' :: (y.take 31 ++ x.take 32) := by
    intro x hx y
    have hle : 32 ≤ x.length := by rw [hlen x hx]; decide
    change 'f' :: (((x ++ y).drop 64).take 31 ++ (x ++ y).take 32) = _
    rw [List.drop_left' (hlen x hx), List.take_append_of_le_length hle]
  refine ⟨?_, ?_⟩
  · intro x y x' y' hx hy hx' hy' heq
    rw [hnode x hx, hnode x' hx'] at heq
    have hlens : (y.take 31).length = (y'.take 31).length := by
      rw [List.length_take, List.length_take, hlen y hy, hlen y' hy']
    obtain ⟨hright, hleft⟩ := List.append_inj (List.cons.inj heq).2 hlens
    have hleft' := congrArg (List.take 31) hleft
    rw [List.take_take, List.take_take] at hleft'
    exact ⟨htake x hx x' hx' hleft', htake y hy y' hy' hright⟩
  · rintro a x y ha hx hy rfl
    exact hls _ ha (by rw [hnode x hx]; rfl)

theorem separating_threeNodes :
    Separating (node halvesHost) (· ∈ threeNodes) (· ∈ [word '0', word '1', word '2']) :=
  separating_halvesHost (by decide) (by decide) (by decide)

theorem map_normaliseHash_three :
    [word '0', word '1', word '2'].map normaliseHash = [word '0', word '1', word '2'] := by
  decide

theorem siblings_three :
    Merkle.siblings (node halvesHost) [word '0', word '1', word '2'] 2 =
      [node halvesHost (word '0') (word '1')] := by
  rw [Merkle.siblings_layer (by decide), Merkle.pairUp, Merkle.pairUp, Merkle.siblings_layer (by decide),
    Merkle.pairUp, Merkle.pairUp, Merkle.siblings_singleton]
  rfl

/-- The last of three leaves has a sibling on one of two layers only. -/
theorem not_paired_three : ¬Paired 3 2 := fun h => absurd (h 0 rfl) (by decide)

/-- The batches of interest: two of the leaves, all three, and all three with the last one once more. -/
def letters : List (List Char) := [['0', '1'], ['0', '1', '2'], ['0', '1', '2', '2']]

theorem occurs_words {cs : List Char} {x : Text} (hcs : cs ∈ letters)
    (h : Occurs (node halvesHost) (cs.map word) x) : x ∈ threeNodes := by
  simp only [letters, List.mem_cons, List.not_mem_nil, or_false] at hcs
  rcases hcs with rfl | rfl | rfl
  all_goals
    simp only [List.map_cons, List.map_nil, Merkle.occurs_layer, Merkle.pairUp, Merkle.occurs_singleton,
      List.mem_cons, List.not_mem_nil, or_false] at h
    simp only [threeNodes, List.mem_cons, List.not_mem_nil, or_false]
    tauto

theorem batch_words {cs : List Char} (hcs : cs ∈ letters) : batch (cs.map word) = cs.map word := by
  have hnorm : ∀ cs ∈ letters, cs ≠ [] ∧ (cs.map word).map normaliseHash = cs.map word := by decide
  rw [batch, if_neg fun h => (hnorm cs hcs).1 (List.map_eq_nil_iff.1 h), (hnorm cs hcs).2]

theorem batchCollisionless_words {cs cs' : List Char} (hcs : cs ∈ letters) (hcs' : cs' ∈ letters) :
    BatchCollisionless halvesHost (cs.map word) (cs'.map word) := by
  have hsub : ∀ cs ∈ letters, ∀ a ∈ cs.map word, a ∈ [word '0', word '1', word '2'] := by
    decide
  rw [BatchCollisionless, batch_words hcs, batch_words hcs']
  refine separating_threeNodes.mono (fun x hx => ?_) fun a ha => ?_
  · exact hx.elim (occurs_words hcs) (occurs_words hcs')
  · exact ha.elim (hsub cs hcs a) (hsub cs' hcs' a)

theorem proofCollisionless_three :
    ProofCollisionless halvesHost [word '0', word '1', word '2'] 2 (word '2') := by
  have hword : normaliseHash (word '2') = word '2' := by decide
  rw [ProofCollisionless, map_normaliseHash_three, siblings_three, hword]
  refine separating_threeNodes.mono (fun x hx => ?_) fun a ha => ha
  rcases hx with hx | hx
  · exact occurs_words (show ['0', '1', '2'] ∈ letters by decide) hx
  · rcases List.mem_pair.1 hx with rfl | rfl <;> simp [threeNodes, Merkle.climb1]

/-- The proof for the first leaf leads to the root, and that for the last one does not. -/
theorem rootOf_buildMerkleProof_three :
    rootOf halvesHost (word '0') 0 (buildMerkleProof halvesHost [word '0', word '1', word '2'] 0) =
      computeMerkleRoot halvesHost [word '0', word '1', word '2'] ∧
    rootOf halvesHost (word '2') 2 (buildMerkleProof halvesHost [word '0', word '1', word '2'] 2) ≠
      computeMerkleRoot halvesHost [word '0', word '1', word '2'] := by
  have hpaired : Paired [word '0', word '1', word '2'].length 0 := by
    intro k hk
    rw [← hk, Nat.zero_div]
    exact .inl rfl
  refine ⟨(rootOf_buildMerkleProof halvesHost _ rfl).1 hpaired, fun h => not_paired_three ?_⟩
  exact ((rootOf_buildMerkleProof halvesHost _ rfl).2 proofCollisionless_three).1 h

/-- The third of three leaves has no sibling, and its proof does not lead to the root. -/
theorem last_leaf_unproved : [word '0', word '1', word '2'].all isBytes32 = true ∧
    ProofCollisionless halvesHost [word '0', word '1', word '2'] 2 (word '2') ∧
    rootOf halvesHost (word '2') 2 (buildMerkleProof halvesHost [word '0', word '1', word '2'] 2) ≠
      computeMerkleRoot halvesHost [word '0', word '1', word '2'] := by
  refine ⟨by decide, proofCollisionless_three, fun h => not_paired_three ?_⟩
  rw [rootOf_eq_iff halvesHost _ rfl] at h
  exact (proofCollisionless_three.climb_eq_iff (fun x hx => .inl hx) (fun y hy => .inr hy) (fun b hb => hb)
    rfl).1 h

/-- Two leaves and three have different roots. -/
theorem computeMerkleRoot_eq_iff_two : computeMerkleRoot halvesHost [word '0', word '1'] ≠
    computeMerkleRoot halvesHost [word '0', word '1', word '2'] := by
  have htwo : ['0', '1'] ∈ letters := by decide
  have hthree : ['0', '1', '2'] ∈ letters := by decide
  intro hroots
  have hcomp := (computeMerkleRoot_eq_iff (batchCollisionless_words htwo hthree)).1.1 hroots
  rw [batch_words htwo, batch_words hthree] at hcomp
  have hself : completed (['0', '1'].map word) = ['0', '1'].map word := by
    rw [completed, Merkle.treeOf, List.map_map, List.map_cons, List.map_singleton, Merkle.root?_pair]
    rfl
  have hle := (Merkle.prefix_completed (['0', '1', '2'].map word)).length_le
  rw [← hcomp, hself] at hle
  exact absurd hle (by decide)

/-- A batch of three and that with the last leaf once more have one root. -/
theorem repeated_leaf_unseen : [word '0', word '1', word '2'].all isBytes32 = true ∧
    BatchCollisionless halvesHost [word '0', word '1', word '2'] [word '0', word '1', word '2', word '2'] ∧
    [word '0', word '1', word '2'] ≠ [word '0', word '1', word '2', word '2'] ∧
    computeMerkleRoot halvesHost [word '0', word '1', word '2'] =
      computeMerkleRoot halvesHost [word '0', word '1', word '2', word '2'] := by
  have hthree : ['0', '1', '2'] ∈ letters := by decide
  have hfour : ['0', '1', '2', '2'] ∈ letters := by decide
  refine ⟨by decide, batchCollisionless_words hthree hfour, ?_, ?_⟩
  · intro h
    exact absurd (congrArg List.length h) (by decide)
  · obtain ⟨root, hroot, heq⟩ := computeMerkleRoot_batch halvesHost (['0', '1', '2'].map word)
    obtain ⟨root', hroot', heq'⟩ := computeMerkleRoot_batch halvesHost (['0', '1', '2', '2'].map word)
    have hlayer : Merkle.pairUp (node halvesHost) (['0', '1', '2'].map word) =
      Merkle.pairUp (node halvesHost) (['0', '1', '2', '2'].map word) := rfl
    rw [batch_words hthree, Merkle.root?_layer (by decide), hlayer] at hroot
    rw [batch_words hfour, Merkle.root?_layer (by decide), hroot] at hroot'
    obtain rfl := Option.some.inj hroot'
    exact heq.trans heq'.symm

end CrossChainSynchronizer
