/-
  MultiTenantLedger — the data of the contract (`src/multi_tenant.rs`).

  Every key but the registry carries the tenant it belongs to (`tenantOf`).
  `BytesN<32>` is the type `D` of digests.
-/
import AuditTransparency.Soroban.Locality
import AuditTransparency.Ledger.Hashing

namespace MultiTenantLedger

open Soroban
open AuditLedger (Datum Published u64ToBytes u32ToBytes)

/-- Lifecycle state of a tenant. -/
inductive TenantStatus where
  | active
  | suspended
  | archived
  | deleted
  deriving DecidableEq

structure TenantConfig where
  tenantId : Symbol
  creator : Address
  status : TenantStatus
  maxEvents : ℕ
  maxMetadataBytes : ℕ
  rateLimit : ℕ
  createdAt : ℕ
  updatedAt : ℕ
  totalEvents : ℕ
  description : Bytes
  deriving DecidableEq

structure TenantEvent (D : Type) where
  tenantId : Symbol
  index : ℕ
  timestamp : ℕ
  eventType : Symbol
  submitter : Address
  metadata : Bytes
  subEventType : Option Symbol
  eventId : D
  prevHash : D
  deriving DecidableEq

/-- The errors the contract raises. -/
inductive TenantError where
  | tenantAlreadyExists
  | tenantNotFound
  | notTenantAdmin
  | tenantSuspended
  | tenantArchived
  | tenantDeleted
  | tenantQuotaExceeded
  | tenantTypeCapExceeded
  | tenantEventNotFound
  | tenantTypeIndexOutOfBounds
  | tenantMetadataTooLarge
  | tenantRateLimitExceeded
  | tenantHasEvents
  deriving DecidableEq

/-! ## Storage keys -/

inductive TenantDataKey where
  | tenantIds
  | tenantConfig
  | tenantAdmin
  | tenantEventCount
  | tenantEventOrder
  | tenantEventData
  | tenantTypeCount
  | tenantTypeIndices
  | tenantCapConfig
  | tenantRateState
  | tenantPrevHash
  deriving DecidableEq

/-- The argument of a key. -/
@[reducible] def TenantDataKey.Key (D : Type) : TenantDataKey → Type
  | tenantIds => Unit
  | tenantConfig | tenantEventCount | tenantPrevHash => Symbol
  | tenantAdmin | tenantRateState => Symbol × Address
  | tenantEventOrder => Symbol × ℕ
  | tenantEventData => Symbol × D
  | tenantTypeCount | tenantTypeIndices | tenantCapConfig => Symbol × Symbol

/-- The value stored under a key. -/
@[reducible] def TenantDataKey.Val (D : Type) : TenantDataKey → Type
  | tenantIds => List Symbol
  | tenantConfig => TenantConfig
  | tenantAdmin => Bool
  | tenantEventCount | tenantTypeCount | tenantCapConfig => ℕ
  | tenantEventOrder | tenantPrevHash => D
  | tenantEventData => TenantEvent D
  | tenantTypeIndices => Bytes
  | tenantRateState => ℕ × ℕ

instance TenantDataKey.decEqKey {D : Type} [DecidableEq D] :
    (f : TenantDataKey) → DecidableEq (f.Key D)
  | tenantIds => inferInstanceAs (DecidableEq Unit)
  | tenantConfig | tenantEventCount | tenantPrevHash => inferInstanceAs (DecidableEq String)
  | tenantAdmin | tenantRateState => inferInstanceAs (DecidableEq (String × Address))
  | tenantEventOrder => inferInstanceAs (DecidableEq (String × ℕ))
  | tenantEventData => inferInstanceAs (DecidableEq (String × D))
  | tenantTypeCount | tenantTypeIndices | tenantCapConfig =>
    inferInstanceAs (DecidableEq (String × String))

/-- The storage of the contract. -/
abbrev layout (D : Type) [DecidableEq D] : Layout where
  Field := TenantDataKey
  Key := TenantDataKey.Key D
  Val := TenantDataKey.Val D
  Note := Published D

/-- The ledger of a `MultiTenantLedger` instance. -/
abbrev State (D : Type) [DecidableEq D] := Ledger (layout D)

/-- A function of the contract. -/
abbrev Fn (D : Type) [DecidableEq D] : Type → Type := Call TenantError (layout D)

section
variable {D : Type} [DecidableEq D]

/-- `env.storage().instance()` -/
abbrev get (f : TenantDataKey) (k : f.Key D) : Fn D (Option (f.Val D)) := Call.load (layout D) f k
abbrev set (f : TenantDataKey) (k : f.Key D) (v : f.Val D) : Fn D Unit := Call.store (layout D) f k v
abbrev remove (f : TenantDataKey) (k : f.Key D) : Fn D Unit := Call.clear (layout D) f k

/-- `env.events().publish(..)` -/
abbrev publish (topics : List Symbol) (data : List (Datum D)) : Fn D Unit :=
  Call.publish (layout D) ⟨topics, data⟩

/-- The tenant in a key. -/
def tenantOf : Ownership (layout D) Symbol
  | .tenantIds, _ => none
  | .tenantConfig, k | .tenantEventCount, k | .tenantPrevHash, k => some k
  | .tenantAdmin, k | .tenantRateState, k | .tenantEventOrder, k | .tenantEventData, k
  | .tenantTypeCount, k | .tenantTypeIndices, k | .tenantCapConfig, k => some k.1

end

/-! ## The host -/

/-- What the host gives the contract. -/
structure Host (D : Type) where
  /-- `env.crypto().sha256` -/
  sha256 : Bytes → D
  /-- `BytesN::from_array(&env, &[0u8; 32])` -/
  zeros : D

/-- What `compute_tenant_event_id` hashes. -/
def tenantEventPayload (env : Env) (tenantId : Symbol) (submitter : Address) (eventType : Symbol)
    (metadata : Bytes) (timestamp : ℕ) : Bytes :=
  u64ToBytes (env.payload tenantId).toNat ++ u64ToBytes (env.payload eventType).toNat ++
    submitter.strkey ++ metadata ++ u64ToBytes timestamp

/-- `compute_tenant_event_id` -/
def computeTenantEventId {D : Type} (H : Host D) (env : Env) (tenantId : Symbol)
    (submitter : Address) (eventType : Symbol) (metadata : Bytes) (timestamp : ℕ) : D :=
  H.sha256 (tenantEventPayload env tenantId submitter eventType metadata timestamp)

end MultiTenantLedger
