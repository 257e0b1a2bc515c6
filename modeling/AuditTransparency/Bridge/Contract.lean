/-
  CrossChainBridge — the token bridge (`src/cross_chain_bridge.rs`).

  Relays submit attestations of balances on another chain, and the owner accepts
  them into a cache of verified balances.  Everything is kept in the instance store.

  The invoker of a submission (`env.invoker()`) is an argument of the operation.  The
  hash of the attestation is left out: the placeholder `verify_signature` computes it
  and does not use it.
-/
import AuditTransparency.Soroban.Script
import AuditTransparency.Soroban.Writes

namespace CrossChainBridge

open Soroban
open Soroban.Call

/-! ## Data -/

structure BridgeRelay where
  relayAddress : Address
  pubkey : Bytes
  active : Bool
  reputation : ℤ
  deriving DecidableEq

structure BalanceAttestation where
  relay : Address
  userAddress : Bytes
  tokenAddress : Bytes
  tokenId : ℕ
  balance : ℕ
  blockHeight : ℕ
  timestamp : ℕ
  signature : Bytes
  accepted : Bool
  deriving DecidableEq

structure BridgeVerificationRecord where
  user : Bytes
  tokenAddress : Bytes
  tokenId : ℕ
  balance : ℕ
  verifiedAtLedger : ℕ
  ttlLedgers : ℕ
  verifiedByRelay : Address
  confirmations : ℕ
  deriving DecidableEq

structure BridgeConfig where
  signatureThreshold : ℕ
  cacheTtlLedgers : ℕ
  maxBlockAge : ℕ
  deriving DecidableEq

inductive BridgeError where
  | unauthorized
  | relayNotFound
  | invalidSignature
  | insufficientConfirmations
  | attestationTooOld
  | invalidEthAddress
  | invalidSignatureFormat
  | verificationExpired
  | bridgeNotConfigured
  | relayAlreadyExists
  | invalidThreshold
  deriving DecidableEq

/-! ## Storage keys -/

inductive BridgeKey where
  | owner
  | bridgeRelay
  | allRelays
  | bridgeConfig
  | pendingAttestation
  | verificationCache
  | ethChainId
  deriving DecidableEq

/-- The argument of a key. -/
@[reducible] def BridgeKey.Key : BridgeKey → Type
  | owner | allRelays | bridgeConfig | ethChainId => Unit
  | bridgeRelay => Address
  | pendingAttestation => Address × Bytes × Bytes
  | verificationCache => Bytes × Bytes × ℕ

/-- The value stored under a key. -/
@[reducible] def BridgeKey.Val : BridgeKey → Type
  | owner => Address
  | bridgeRelay => BridgeRelay
  | allRelays => List Address
  | bridgeConfig => BridgeConfig
  | pendingAttestation => BalanceAttestation
  | verificationCache => BridgeVerificationRecord
  | ethChainId => ℕ

instance BridgeKey.decEqKey : (f : BridgeKey) → DecidableEq f.Key
  | owner | allRelays | bridgeConfig | ethChainId => inferInstanceAs (DecidableEq Unit)
  | bridgeRelay => inferInstanceAs (DecidableEq Address)
  | pendingAttestation => inferInstanceAs (DecidableEq (Address × List UInt8 × List UInt8))
  | verificationCache => inferInstanceAs (DecidableEq (List UInt8 × List UInt8 × ℕ))

/-- The storage of the bridge; it publishes nothing. -/
abbrev layout : Layout where
  Field := BridgeKey
  Key := BridgeKey.Key
  Val := BridgeKey.Val
  Note := Empty

abbrev State := Ledger layout

abbrev Fn : Type → Type := Call BridgeError layout

/-- `env.storage().instance()` -/
abbrev get (f : BridgeKey) (k : f.Key) : Fn (Option f.Val) := Call.load layout f k
abbrev set (f : BridgeKey) (k : f.Key) (v : f.Val) : Fn Unit := Call.store layout f k v

/-! ## Helpers -/

/-- `get_owner` -/
def getOwner : Fn Address := do unwrapOr (← get .owner ()) .unauthorized

/-- `get_bridge_config` -/
def getBridgeConfig : Fn BridgeConfig := do unwrapOr (← get .bridgeConfig ()) .bridgeNotConfigured

/-- `validate_eth_address` -/
def validateEthAddress (addr : Bytes) : Fn Unit := rejectIf (addr.length ≠ 42) .invalidEthAddress

/-- `verify_signature`: only the length is looked at. -/
def verifySignature (_relay : BridgeRelay) (attestation : BalanceAttestation) : Bool :=
  attestation.signature.length = 65

/-! ## Functions -/

/-- `initialize_bridge` -/
def initializeBridge (owner : Address) (signatureThreshold cacheTtlLedgers ethChainId : ℕ) : Fn Unit := do
  requireAuth owner
  rejectIf (signatureThreshold = 0) .invalidThreshold
  set .owner () owner
  set .bridgeConfig () { signatureThreshold, cacheTtlLedgers, maxBlockAge := 256 }
  set .ethChainId () ethChainId
  set .allRelays () []

/-- `register_relay` -/
def registerRelay (relayAddress : Address) (pubkey : Bytes) : Fn Unit := do
  let owner ← getOwner
  requireAuth owner
  rejectIf (pubkey.length ≠ 65) .invalidSignatureFormat
  rejectIf (← get .bridgeRelay relayAddress).isSome .relayAlreadyExists
  set .bridgeRelay relayAddress { relayAddress, pubkey, active := true, reputation := 100 }
  let relays := (← get .allRelays ()).getD []
  set .allRelays () (relays ++ [relayAddress])

/-- `deactivate_relay` -/
def deactivateRelay (relayAddress : Address) : Fn Unit := do
  let owner ← getOwner
  requireAuth owner
  let relay ← unwrapOr (← get .bridgeRelay relayAddress) .relayNotFound
  set .bridgeRelay relayAddress { relay with active := false }

/-- `submit_attestation`; the sum in the check of the block age traps when it overflows. -/
def submitAttestation (invoker : Address) (attestation : BalanceAttestation) : Fn Unit := do
  let relay ← unwrapOr (← get .bridgeRelay invoker) .relayNotFound
  rejectIf (relay.active = false) .relayNotFound
  validateEthAddress attestation.userAddress
  validateEthAddress attestation.tokenAddress
  rejectIf (verifySignature relay attestation = false) .invalidSignature
  let config ← getBridgeConfig
  let limit ← addChecked 64 attestation.blockHeight config.maxBlockAge
  rejectIf (limit < attestation.blockHeight) .attestationTooOld
  set .pendingAttestation (invoker, attestation.userAddress, attestation.tokenAddress) attestation

/-- `accept_attestation` -/
def acceptAttestation (relayAddress : Address) (userAddress tokenAddress : Bytes) (tokenId : ℕ) :
    Fn Unit := do
  let owner ← getOwner
  requireAuth owner
  let attestation ←
    unwrapOr (← get .pendingAttestation (relayAddress, userAddress, tokenAddress)) .relayNotFound
  let config ← getBridgeConfig
  set .verificationCache (userAddress, tokenAddress, tokenId) {
    user := userAddress
    tokenAddress, tokenId
    balance := attestation.balance
    verifiedAtLedger := (← getEnv).sequence
    ttlLedgers := config.cacheTtlLedgers
    verifiedByRelay := relayAddress
    confirmations := 1 }

/-- `get_verified_balance` -/
def getVerifiedBalance (userAddress tokenAddress : Bytes) (tokenId : ℕ) : Fn ℕ := do
  validateEthAddress userAddress
  validateEthAddress tokenAddress
  let cached ← get .verificationCache (userAddress, tokenAddress, tokenId)
  onSome cached
    (fun record => do
      let expiry ← addChecked 32 record.verifiedAtLedger record.ttlLedgers
      rejectIf ((← getEnv).sequence > expiry) .verificationExpired
      return record.balance)
    (return 0)

/-- `update_bridge_config` -/
def updateBridgeConfig (signatureThreshold cacheTtlLedgers : ℕ) : Fn Unit := do
  let owner ← getOwner
  requireAuth owner
  rejectIf (signatureThreshold = 0) .invalidThreshold
  set .bridgeConfig () { signatureThreshold, cacheTtlLedgers, maxBlockAge := 256 }

/-! ## Operations -/

/-- The functions that can write. -/
inductive Op where
  | initializeBridge (owner : Address) (signatureThreshold cacheTtlLedgers ethChainId : ℕ)
  | registerRelay (relayAddress : Address) (pubkey : Bytes)
  | deactivateRelay (relayAddress : Address)
  | submitAttestation (invoker : Address) (attestation : BalanceAttestation)
  | acceptAttestation (relayAddress : Address) (userAddress tokenAddress : Bytes) (tokenId : ℕ)
  | updateBridgeConfig (signatureThreshold cacheTtlLedgers : ℕ)
  deriving DecidableEq

/-- Runs an operation. -/
def exec : Op → Fn Unit
  | .initializeBridge a n m i => initializeBridge a n m i
  | .registerRelay a k => registerRelay a k
  | .deactivateRelay a => deactivateRelay a
  | .submitAttestation a x => submitAttestation a x
  | .acceptAttestation a u t i => acceptAttestation a u t i
  | .updateBridgeConfig n m => updateBridgeConfig n m

end CrossChainBridge
