/-
  ProofBuilder, DisclosureHelper — proofs that a field is part of an event (`src/disclosure.rs`).

  The hashes of the fields are the leaves of a tree, and a proof leads from one of them to the
  root.  Two hashes are combined byte by byte, with exclusive or: what is combined with a hash
  can be chosen such that any hash results.

  * `Complete`: the proofs read off the tree are accepted;
  * `Sound`: a proof that is accepted is about a field;
  * `accepted_of_sibling`: any hash is accepted, with one sibling;
  * `inclusion_complete_unsound`: so the proofs are complete and never sound.
-/
import AuditTransparency.Soroban.PromotedTrees
import AuditTransparency.Soroban.Words
import Mathlib.Data.Vector.Zip

namespace SelectiveDisclosure

open Soroban
open PromotedTree (pairUp root? steps climb climb_steps)

/-! ## Data -/

structure FieldHash where
  fieldName : Symbol
  hash : BytesN 32
  disclosed : Bool
  deriving DecidableEq

structure FieldDisclosureProof where
  fieldName : Symbol
  fieldValue : Option Bytes
  fieldHash : BytesN 32
  siblingHashes : List (BytesN 32)
  positions : List ℕ
  deriving DecidableEq

variable {fields : List FieldHash} {fieldProof : FieldDisclosureProof} {a b c root h : BytesN 32} {i : ℕ}

/-! ## Functions -/

/-- `BytesN::<32>::from_array(.., &[0u8; 32])` -/
def zeros : BytesN 32 := .replicate 32 0

/-- `combine_hashes` -/
def combineHashes (left right : BytesN 32) : BytesN 32 := .zipWith (· ^^^ ·) left right

/-- `calculate_root`, over `all_fields`.  A level of hashes is combined in pairs, and the last of an odd number is
    pushed to the next level, until there is one. -/
def calculateRoot (allFields : List FieldHash) : BytesN 32 :=
  if allFields.isEmpty then zeros
  else (root? combineHashes (allFields.map (·.hash))).getD zeros

/-- The loop in `verify_field_inclusion`; `none` if there is no position for a sibling. -/
def hashPath (currentHash : BytesN 32) : List (BytesN 32) → List ℕ → Option (BytesN 32)
  | [], _ => some currentHash
  | _ :: _, [] => none
  | sibling :: siblings, position :: positions =>
    hashPath (if position = 0 then combineHashes sibling currentHash else combineHashes currentHash sibling)
      siblings positions

/-- `verify_field_inclusion`; `none` if it panics. -/
def verifyFieldInclusion (fieldProof : FieldDisclosureProof) (expectedRoot : BytesN 32) : Option Bool := do
  let currentHash ← hashPath fieldProof.fieldHash fieldProof.siblingHashes fieldProof.positions
  return currentHash = expectedRoot

/-! ## Combined hashes -/

theorem get_combineHashes (j : Fin 32) : (combineHashes a b).get j = a.get j ^^^ b.get j :=
  List.Vector.zipWith_get _ _ _ _

theorem combineHashes_comm : combineHashes a b = combineHashes b a := by
  ext j
  rw [get_combineHashes, get_combineHashes, UInt8.xor_comm]

/-- **Any hash is combined from a given one.** -/
theorem combineHashes_cancel : combineHashes (combineHashes a b) a = b := by
  ext j
  rw [get_combineHashes, get_combineHashes, UInt8.xor_comm (a.get j), UInt8.xor_assoc, UInt8.xor_self,
    UInt8.xor_zero]

/-! ## Proofs -/

/-- **The proofs read off the tree are accepted**: from a field, what stands beside the nodes above it.  It does
    not matter which positions are given for it. -/
def Complete (fields : List FieldHash) : Prop :=
  ∀ (i : ℕ) (field : FieldHash), fields[i]? = some field → ∀ fieldProof : FieldDisclosureProof,
    fieldProof.fieldHash = field.hash →
    fieldProof.siblingHashes = (steps combineHashes (fields.map (·.hash)) i).map Prod.snd →
    fieldProof.siblingHashes.length ≤ fieldProof.positions.length →
    verifyFieldInclusion fieldProof (calculateRoot fields) = some true

/-- **A proof that is accepted is about a field.** -/
def Sound (fields : List FieldHash) : Prop :=
  ∀ fieldProof, verifyFieldInclusion fieldProof (calculateRoot fields) = some true →
    ∃ field ∈ fields, field.hash = fieldProof.fieldHash

theorem verifyFieldInclusion_iff : verifyFieldInclusion fieldProof root = some true ↔
    hashPath fieldProof.fieldHash fieldProof.siblingHashes fieldProof.positions = some root := by
  rw [verifyFieldInclusion, Option.bind_eq_bind, Option.bind_eq_some_iff]
  constructor
  · rintro ⟨h, hpath, heq⟩
    rw [hpath, of_decide_eq_true (Option.some.inj heq)]
  · intro hpath
    exact ⟨root, hpath, congrArg some (decide_eq_true rfl)⟩

/-- The sides do not matter. -/
theorem hashPath_eq (path : List (Bool × BytesN 32)) (h : BytesN 32) {positions : List ℕ}
    (hlen : path.length ≤ positions.length) :
    hashPath h (path.map Prod.snd) positions = some (climb combineHashes h path) := by
  induction path generalizing h positions with
  | nil => rfl
  | cons step path ih =>
    cases positions with
    | nil => simp at hlen
    | cons position positions =>
      have hstep : (if position = 0 then combineHashes step.2 h else combineHashes h step.2) =
          if step.1 then combineHashes h step.2 else combineHashes step.2 h := by
        rw [combineHashes_comm (a := h), ite_self, ite_self]
      rw [List.map_cons, hashPath, hstep, ih _ (Nat.le_of_succ_le_succ hlen)]
      rfl

theorem calculateRoot_eq {field : FieldHash} (h : fields[i]? = some field) :
    calculateRoot fields = climb combineHashes field.hash (steps combineHashes (fields.map (·.hash)) i) := by
  have hne : fields.isEmpty = false := by
    cases fields with
    | nil => cases h
    | cons _ _ => rfl
  have hhash : (fields.map (·.hash))[i]? = some field.hash := by
    rw [List.getElem?_map, h, Option.map_some]
  rw [calculateRoot, hne, if_neg Bool.false_ne_true, climb_steps hhash, Option.getD_some]

/-- **The proofs are complete.** -/
theorem complete (fields : List FieldHash) : Complete fields := by
  intro i field hfield fieldProof hhash hsiblings hlen
  rw [hsiblings, List.length_map] at hlen
  rw [verifyFieldInclusion_iff, hhash, hsiblings, hashPath_eq _ _ hlen, calculateRoot_eq hfield]

/-- **Any hash is accepted**, with the sibling that is missing to the root. -/
theorem accepted_of_sibling (fieldName : Symbol) (h root : BytesN 32) :
    verifyFieldInclusion ⟨fieldName, none, h, [combineHashes h root], [0]⟩ root = some true := by
  rw [verifyFieldInclusion_iff]
  exact congrArg some combineHashes_cancel

theorem sound_iff_hashes : Sound fields ↔ ∀ h, ∃ field ∈ fields, field.hash = h := by
  constructor
  · intro hsound h
    exact hsound _ (accepted_of_sibling "" h (calculateRoot fields))
  · intro hall fieldProof _
    exact hall fieldProof.fieldHash

/-- **For every list of fields the proofs are complete, and they are not sound.** -/
theorem inclusion_complete_unsound (hlen : fields.length < 2 ^ 32) : Complete fields ∧ ¬Sound fields := by
  refine ⟨complete fields, ?_⟩
  intro hsound
  obtain ⟨h, hh⟩ := BytesN.exists_not_mem (n := 32) (l := fields.map (·.hash))
    (by rw [List.length_map]; exact hlen.trans (Nat.pow_lt_pow_right (by decide) (by decide)))
  obtain ⟨field, hfield, rfl⟩ := sound_iff_hashes.1 hsound h
  exact hh (List.mem_map_of_mem hfield)

/-! ## Events -/

/-- An event with three fields. -/
def eventFields : List FieldHash :=
  [⟨"actor", .replicate 32 1, true⟩, ⟨"action", .replicate 32 2, false⟩, ⟨"amount", .replicate 32 4, false⟩]

/-- Three leaves, the last of which is promoted. -/
theorem inclusion_complete_unsound_eventFields : Complete eventFields ∧ ¬Sound eventFields :=
  inclusion_complete_unsound (by decide)

/-- A proof for a hash that is not among them. -/
def forgedProof : FieldDisclosureProof := ⟨"amount", none, .replicate 32 8, [.replicate 32 15], [0]⟩

theorem forged_proof_accepted :
    verifyFieldInclusion forgedProof (calculateRoot eventFields) = some true ∧
      ¬∃ field ∈ eventFields, field.hash = forgedProof.fieldHash := by
  have hroot : calculateRoot eventFields = .replicate 32 7 := by
    show (root? combineHashes [.replicate 32 1, .replicate 32 2, .replicate 32 4]).getD zeros = _
    rw [root?, pairUp, pairUp, root?, pairUp, pairUp, root?]
    rfl
  constructor
  · rw [hroot, verifyFieldInclusion_iff]
    rfl
  · decide

end SelectiveDisclosure
