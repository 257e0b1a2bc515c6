/-
  AuditLedgerVerifier — proofs of events on an EVM chain (`bridge/evm/Verifier.sol`).

  An event is verified when enough of the registered signers have signed its ledger, its
  transaction and its hash.  The signers are kept twice, as a list and as a set, and both
  are replaced together.

  `upgradeTo` runs code of its caller's choice on the storage and is left out; the other
  functions that write are `Op`.
-/
import AuditTransparency.Evm.Tx
import AuditTransparency.Soroban.Words
import Mathlib.Logic.Function.Basic

namespace AuditLedgerVerifier

open Soroban (byteAt)
open Solidity
open Solidity.Tx

/-! ## Data -/

/-- What the contract uses of the chain; `bytes32` is the type `W`. -/
structure Host (W : Type) where
  keccak256 : Bytes → W
  /-- a `bytes32` in packed data -/
  bytes32 : W → Bytes
  /-- the address that has made a signature; zero when there is none -/
  ecrecover : W → UInt8 → Bytes → Bytes → Address

inductive Log (W : Type) where
  | eventVerified (eventHash : W) (ledgerSeq : UInt64) (eventIndex : UInt32)
  | signersUpdated (signers : List Address) (threshold : UInt8)
  | ownershipTransferred (oldOwner newOwner : Address)
  | storageMigrated (fromSchema toSchema : UInt16)
  | upgradeAdminChanged (oldAdmin newAdmin : Address)
  deriving DecidableEq

/-- The storage, and the logs emitted. -/
structure Storage (W : Type) where
  initialized : Bool := false
  owner : Address := 0
  signers : List Address := []
  isSigner : Address → Bool := fun _ => false
  threshold : UInt8 := 0
  maxLedgerAge : UInt64 := 0
  latestAcceptedLedger : UInt64 := 0
  verifiedEvents : W → Bool := fun _ => false
  contractVersion : UInt16 := 0
  storageSchemaVersion : UInt16 := 0
  upgradeAdmin : Address := 0
  logs : List (Log W) := []

inductive Error where
  | invalidProof
  | alreadyVerified
  | proofTooOld
  | unauthorized
  | invalidThreshold
  | duplicateSigner
  | invalidSignature
  | alreadyInitialized
  | migrationAlreadyApplied
  | notUpgradeAdmin
  | invalidAddress
  deriving DecidableEq

variable {W : Type}

abbrev Fn (W : Type) : Type → Type := Tx Error (Storage W)

/-! ## Functions -/

/-- `onlyOwner` -/
def onlyOwner : Fn W Unit := do revertIf ((← getMsg).sender ≠ (← get).owner) .unauthorized

/-- `onlyUpgradeAdmin` -/
def onlyUpgradeAdmin : Fn W Unit := do
  revertIf ((← getMsg).sender ≠ (← get).upgradeAdmin) .notUpgradeAdmin

/-- `isSigner[a] = true`, once. -/
def registerSigner (a : Address) : Fn W Unit := do
  revertIf ((← get).isSigner a = true) .duplicateSigner
  modify fun s => { s with isSigner := Function.update s.isSigner a true }

/-- The loop that registers signers. -/
def registerSigners (l : List Address) : Fn W Unit := loop (fun _ a => registerSigner a) () l

theorem registerSigners_cons (a : Address) (l : List Address) :
    registerSigners (a :: l) = (do registerSigner a; registerSigners l : Fn W Unit) := rfl

/-- The loop that clears the signers. -/
def clearSigners : Fn W Unit := do
  loop (fun _ a => modify fun s => { s with isSigner := Function.update s.isSigner a false }) ()
    (← get).signers

/-- `initialize` -/
def initializeVerifier (signers : List Address) (threshold : UInt8) (upgradeAdmin : Address) : Fn W Unit := do
  revertIf ((← get).initialized = true) .alreadyInitialized
  modify fun s => { s with initialized := true }
  let owner := (← getMsg).sender
  modify fun s => { s with owner }
  revertIf (threshold = 0 ∨ threshold.toNat > signers.length) .invalidThreshold
  revertIf (upgradeAdmin = 0) .invalidAddress
  registerSigners signers
  modify fun s => { s with signers, threshold, maxLedgerAge := 1000, upgradeAdmin }
  modify fun s => { s with contractVersion := 2, storageSchemaVersion := 1 }

/-- `migrateStorage` -/
def migrateStorage (targetSchema : UInt16) : Fn W Unit := do
  onlyUpgradeAdmin
  revertIf (targetSchema ≤ (← get).storageSchemaVersion) .migrationAlreadyApplied
  let fromSchema := (← get).storageSchemaVersion
  doIf (targetSchema = 2) do
    doIf ((← get).maxLedgerAge = 0) do
      modify fun s => { s with maxLedgerAge := 1000 }
  modify fun s => { s with
    storageSchemaVersion := targetSchema
    logs := s.logs ++ [.storageMigrated fromSchema targetSchema] }

/-- `transferUpgradeAdmin` -/
def transferUpgradeAdmin (newAdmin : Address) : Fn W Unit := do
  onlyUpgradeAdmin
  revertIf (newAdmin = 0) .invalidAddress
  modify fun s => { s with
    upgradeAdmin := newAdmin
    logs := s.logs ++ [.upgradeAdminChanged s.upgradeAdmin newAdmin] }

/-- A `uint64` in packed data. -/
def bigEndian (n : UInt64) : Bytes :=
  let byte := byteAt n.toNat
  [byte 56, byte 48, byte 40, byte 32, byte 24, byte 16, byte 8, byte 0]

/-- What stands before a digest that is signed by an account. -/
def signedMessagePrefix : Bytes :=
  0x19 :: "Ethereum Signed Message:\n32".toList.map fun c => UInt8.ofNat c.toNat

/-- What is signed for an event: its index is not part of it. -/
def packedEvent (H : Host W) (ledgerSeq : UInt64) (txHash eventHash : W) : Bytes :=
  bigEndian ledgerSeq ++ H.bytes32 txHash ++ H.bytes32 eventHash

/-- The digest that is signed for an event. -/
def signedDigest (H : Host W) (ledgerSeq : UInt64) (txHash eventHash : W) : W :=
  H.keccak256 (signedMessagePrefix ++ H.bytes32 (H.keccak256 (packedEvent H ledgerSeq txHash eventHash)))

/-- The parity of a signature: small values are shifted by 27. -/
def parity (sig : Bytes) : UInt8 :=
  let v := sig.getD 64 0
  if v < 27 then v + 27 else v

/-- `_recover` -/
def recover (H : Host W) (digest : W) (sig : Bytes) : Fn W Address := do
  revertIf (sig.length ≠ 65) .invalidProof
  let v := parity sig
  revertIf (v ≠ 27 ∧ v ≠ 28) .invalidProof
  let signer := H.ecrecover digest v (sig.take 32) ((sig.drop 32).take 32)
  revertIf (signer = 0) .invalidProof
  return signer

/-- The loop over the signatures: what they recover to, and their number. -/
def recoverSigners (H : Host W) (digest : W) (signatures : List Bytes) : Fn W (List Address × ℕ) :=
  loop (fun r sig => do
    let recovered ← recover H digest sig
    revertIf ((← get).isSigner recovered = false) .invalidProof
    revertIf (recovered ∈ r.1) .duplicateSigner
    return (r.1 ++ [recovered], ← addChecked 8 r.2 1)) ([], 0) signatures

/-- The checks of `verifyEvent`. -/
def checkProof (H : Host W) (ledgerSeq : UInt64) (txHash eventHash : W) (signatures : List Bytes) :
    Fn W Unit := do
  revertIf ((← get).verifiedEvents eventHash = true) .alreadyVerified
  let latest := (← get).latestAcceptedLedger
  revertIf (latest > 0 ∧ latest > ledgerSeq ∧ latest - ledgerSeq > (← get).maxLedgerAge) .proofTooOld
  let (_, validCount) ← recoverSigners H (signedDigest H ledgerSeq txHash eventHash) signatures
  revertIf (validCount < (← get).threshold.toNat) .invalidSignature

/-- What `verifyEvent` records. -/
def recordProof [DecidableEq W] (ledgerSeq : UInt64) (eventIndex : UInt32) (eventHash : W) : Fn W Bool := do
  modify fun s => { s with verifiedEvents := Function.update s.verifiedEvents eventHash true }
  doIf (ledgerSeq > (← get).latestAcceptedLedger) do
    modify fun s => { s with latestAcceptedLedger := ledgerSeq }
  modify fun s => { s with logs := s.logs ++ [.eventVerified eventHash ledgerSeq eventIndex] }
  return true

/-- `verifyEvent` -/
def verifyEvent [DecidableEq W] (H : Host W) (ledgerSeq : UInt64) (txHash : W) (eventIndex : UInt32)
    (eventHash : W) (signatures : List Bytes) : Fn W Bool := do
  checkProof H ledgerSeq txHash eventHash signatures
  recordProof ledgerSeq eventIndex eventHash

/-- `updateSigners` -/
def updateSigners (newSigners : List Address) (newThreshold : UInt8) : Fn W Unit := do
  onlyOwner
  revertIf (newThreshold = 0 ∨ newThreshold.toNat > newSigners.length) .invalidThreshold
  clearSigners
  registerSigners newSigners
  modify fun s => { s with
    signers := newSigners
    threshold := newThreshold
    logs := s.logs ++ [.signersUpdated newSigners newThreshold] }

/-- `updateMaxLedgerAge` -/
def updateMaxLedgerAge (newAge : UInt64) : Fn W Unit := do
  onlyOwner
  modify fun s => { s with maxLedgerAge := newAge }

/-- `transferOwnership` -/
def transferOwnership (newOwner : Address) : Fn W Unit := do
  onlyOwner
  revertIf (newOwner = 0) .invalidAddress
  modify fun s => { s with
    owner := newOwner
    logs := s.logs ++ [.ownershipTransferred s.owner newOwner] }

/-! ## Operations -/

inductive Op (W : Type) where
  | initializeVerifier (signers : List Address) (threshold : UInt8) (upgradeAdmin : Address)
  | migrateStorage (targetSchema : UInt16)
  | transferUpgradeAdmin (newAdmin : Address)
  | verifyEvent (ledgerSeq : UInt64) (txHash : W) (eventIndex : UInt32) (eventHash : W)
      (signatures : List Bytes)
  | updateSigners (newSigners : List Address) (newThreshold : UInt8)
  | updateMaxLedgerAge (newAge : UInt64)
  | transferOwnership (newOwner : Address)
  deriving DecidableEq

/-- Runs an operation. -/
def exec [DecidableEq W] (H : Host W) : Op W → Fn W Unit
  | .initializeVerifier l n a => initializeVerifier l n a
  | .migrateStorage n => migrateStorage n
  | .transferUpgradeAdmin a => transferUpgradeAdmin a
  | .verifyEvent l t i h g => do let _ ← verifyEvent H l t i h g
  | .updateSigners l n => updateSigners l n
  | .updateMaxLedgerAge n => updateMaxLedgerAge n
  | .transferOwnership a => transferOwnership a

/-! ## Effects -/

/-- The signature is of the address. -/
def Recovers (H : Host W) (digest : W) (sig : Bytes) (a : Address) : Prop :=
  sig.length = 65 ∧ (parity sig = 27 ∨ parity sig = 28) ∧
    H.ecrecover digest (parity sig) (sig.take 32) ((sig.drop 32).take 32) = a ∧ a ≠ 0

/-- The signatures are of distinct signers. -/
structure SignedBy (H : Host W) (s : Storage W) (digest : W) (signatures : List Bytes) (A : List Address) :
    Prop where
  recovers : List.Forall₂ (Recovers H digest) signatures A
  nodup : A.Nodup
  signers : ∀ a ∈ A, s.isSigner a = true

section
variable {H : Host W} {msg : Msg} {s s' : Storage W} {l : List Address} {d : W} {g : Bytes} {G : List Bytes}
  {n : UInt64} {t h : W} {i : UInt32}

theorem post_recover {Q : Address → Storage W → Prop} :
    Post (recover H d g) Q msg s ↔ ∀ a, Recovers H d g a → Q a s := by
  simp only [recover, post_bind, post_revertIf, post_pure, not_and_or, not_not]
  constructor
  · rintro hq a ⟨hlen, hv, rfl, ha⟩
    exact hq hlen hv ha
  · intro hq hlen hv ha
    exact hq _ ⟨hlen, hv, rfl, ha⟩

/-- What the signers are after they were registered. -/
theorem post_registerSigners {Q : Unit → Storage W → Prop} : Post (registerSigners l) Q msg s ↔
    (l.Nodup → (∀ a ∈ l, s.isSigner a = false) →
      Q () { s with isSigner := fun a => s.isSigner a || decide (a ∈ l) }) := by
  induction l generalizing s with
  | nil => simp [registerSigners, loop]
  | cons b l ih =>
    have hupdate : (fun a => Function.update s.isSigner b true a || decide (a ∈ l)) =
        fun a => s.isSigner a || decide (a ∈ b :: l) := by
      funext a
      by_cases hab : a = b
      · subst hab; simp
      · simp [hab]
    rw [registerSigners_cons]
    simp only [registerSigner, post_bind, post_get, post_revertIf, post_modify, ih, hupdate,
      List.nodup_cons, List.forall_mem_cons, Bool.not_eq_true]
    constructor
    · rintro hq ⟨hb, hnodup⟩ ⟨hfree, hrest⟩
      refine hq hfree hnodup fun a ha => ?_
      rw [Function.update_of_ne (by rintro rfl; exact hb ha)]
      exact hrest a ha
    · intro hq hfree hnodup hrest
      have hb : b ∉ l := by
        intro hb
        have hcontra := hrest b hb
        rw [Function.update_self] at hcontra
        cases hcontra
      refine hq ⟨hb, hnodup⟩ ⟨hfree, fun a ha => ?_⟩
      have hfree' := hrest a ha
      rwa [Function.update_of_ne (by rintro rfl; exact hb ha)] at hfree'

theorem post_clearSigners {Q : Unit → Storage W → Prop} : Post clearSigners Q msg s ↔
    Q () { s with isSigner := fun a => s.isSigner a && decide (a ∉ s.signers) } := by
  have hloop : ∀ (l : List Address) (s : Storage W), Post (loop (fun _ a => modify fun s =>
      { s with isSigner := Function.update s.isSigner a false }) () l : Fn W Unit) Q msg s ↔
        Q () { s with isSigner := fun a => s.isSigner a && decide (a ∉ l) } := by
    intro l
    induction l with
    | nil => intro s; simp [loop]
    | cons b l ih =>
      intro s
      rw [loop, post_bind, post_modify, ih]
      have hupdate : (fun a => Function.update s.isSigner b false a && decide (a ∉ l)) =
          fun a => s.isSigner a && decide (a ∉ b :: l) := by
        funext a
        by_cases hab : a = b
        · subst hab; simp
        · simp [hab]
      rw [hupdate]
  rw [clearSigners, post_bind, post_get, hloop]

/-- What the signatures recover to. -/
theorem post_recoverSigners : Post (recoverSigners H d G)
    (fun r s' => s' = s ∧ SignedBy H s d G r.1 ∧ r.2 = r.1.length) msg s := by
  let I (visited : List Bytes) (r : List Address × ℕ) (s' : Storage W) : Prop :=
    s' = s ∧ SignedBy H s d visited r.1 ∧ r.2 = r.1.length
  refine post_loop I ?_ (?_ : I [] ([], 0) s)
  swap
  · exact ⟨rfl, ⟨.nil, List.nodup_nil, nofun⟩, rfl⟩
  rintro visited g ⟨A, k⟩ s' ⟨rfl, hA, hk⟩
  obtain rfl : k = A.length := hk
  simp only [post_bind, post_recover, post_get, post_revertIf, post_addChecked, post_pure,
    Bool.not_eq_false]
  intro a ha hsigner hnew _
  refine ⟨rfl, ⟨?_, ?_, ?_⟩, by simp⟩
  · exact List.rel_append hA.recovers (.cons ha .nil)
  · rw [← List.concat_eq_append, List.nodup_concat]
    exact ⟨hnew, hA.nodup⟩
  · simp only [List.forall_mem_append, List.forall_mem_singleton]
    exact ⟨hA.signers, hsigner⟩

/-- A proof that passes its checks. -/
structure Proven (H : Host W) (s : Storage W) (n : UInt64) (t h : W) (G : List Bytes) : Prop where
  fresh : s.verifiedEvents h = false
  recent : s.latestAcceptedLedger.toNat - s.maxLedgerAge.toNat ≤ n.toNat
  quorum : ∃ A, SignedBy H s (signedDigest H n t h) G A ∧ s.threshold.toNat ≤ A.length

theorem post_checkProof : Post (checkProof H n t h G) (fun _ s' => s' = s ∧ Proven H s n t h G) msg s := by
  simp only [checkProof, post_bind, post_get, post_revertIf, Bool.not_eq_true, not_lt]
  intro hfresh hage
  refine post_recoverSigners.mono ?_
  rintro ⟨A, k⟩ s' ⟨rfl, hA, hk⟩
  obtain rfl : k = A.length := hk
  refine fun hle => ⟨rfl, hfresh, ?_, A, hA, hle⟩
  rcases Nat.lt_or_ge n.toNat s'.latestAcceptedLedger.toNat with hlt | hge
  · have hsub : (s'.latestAcceptedLedger - n).toNat = s'.latestAcceptedLedger.toNat - n.toNat :=
      UInt64.toNat_sub_of_le _ _ (UInt64.le_iff_toNat_le.2 (Nat.le_of_lt hlt))
    simp only [not_and, gt_iff_lt, UInt64.lt_iff_toNat_lt, hsub, UInt64.toNat_zero, not_lt] at hage
    have hle' := hage (by omega) hlt
    omega
  · omega

end

end AuditLedgerVerifier
