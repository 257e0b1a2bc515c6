/-
  AuditLedger — the data of the contract (`src/lib.rs`, `src/data_retention.rs`).

  `u32` and `u64` values are natural numbers; additions that can overflow are
  checked where they are made.  `BytesN<32>` is the type `D` of digests: it is a
  parameter, so that "`sha256` has no collisions" can be assumed of it.

  * the records the contract stores, under their source names;
  * `DataKey`, with the argument (`Key`) and the value (`Val`) of every key;
  * `Host`: the hash and the constants the host gives the contract.
-/
import AuditTransparency.Soroban.Call

namespace AuditLedger

open Soroban

/-! ## Events -/

/-- An audit event. -/
structure Event (D : Type) where
  index : ℕ
  timestamp : ℕ
  eventType : Symbol
  category : Symbol
  submitter : Address
  metadata : Bytes
  subEventType : Option Symbol
  version : ℕ
  eventHash : D
  prevHash : D
  parentEventId : Option D
  deriving DecidableEq

structure EventHeader where
  index : ℕ
  timestamp : ℕ
  eventType : Symbol
  submitter : Address
  deriving DecidableEq

structure EventVersion (D : Type) where
  version : ℕ
  data : Event D
  updatedAt : ℕ
  updatedBy : Address
  deriving DecidableEq

/-! ## Global state -/

structure Config where
  globalMaxLogs : ℕ
  totalEvents : ℕ
  deriving DecidableEq

/-- The packed copy of the global flags that `log_event` reads at once. -/
structure RuntimeState where
  globalMaxLogs : ℕ
  totalEvents : ℕ
  paused : Bool
  allowlistMode : Bool
  lowCostMode : Bool
  emissionMode : ℕ
  globalMetadataMaxSize : ℕ
  deriving DecidableEq

structure NonceState where
  lastNonce : ℕ
  windowSize : ℕ
  maxNonce : ℕ
  deriving DecidableEq

inductive Role where
  | admin
  | auditor
  | submitter
  | viewer
  deriving DecidableEq

/-- Precedence: a caller holding a role satisfies every role of lower rank. -/
def Role.rank : Role → ℕ
  | admin => 4
  | auditor => 3
  | submitter => 2
  | viewer => 1

inductive DedupPolicy where
  | none
  | contentHash
  | contentHashWithTimestamp
  | custom
  deriving DecidableEq

/-- `policy as u32` -/
def DedupPolicy.disc : DedupPolicy → ℕ
  | none => 0
  | contentHash => 1
  | contentHashWithTimestamp => 2
  | custom => 3

/-! ## Proposals and snapshots -/

inductive ProposalAction where
  | transferOwnership (newOwner : Address)
  | addOwner (addr : Address)
  | removeOwner (addr : Address)
  | setRequiredSignatures (req : ℕ)
  | setGlobalMaxLogs (v : ℕ)
  | setMetadataSchema (eventType : Symbol) (schema : Bytes)
  | rollbackEvent (index targetVersion : ℕ)
  | pause
  | unpause
  deriving DecidableEq

structure Proposal where
  id : ℕ
  proposer : Address
  action : ProposalAction
  approvals : List Address
  expiresAt : ℕ
  executed : Bool
  deriving DecidableEq

structure Snapshot (D : Type) where
  id : ℕ
  timestamp : ℕ
  eventCount : ℕ
  eventHash : D
  description : Bytes
  deriving DecidableEq

structure TtlCleanupStats where
  runs : ℕ
  ttlExtensions : ℕ
  cleaned : ℕ
  lastRunLedger : ℕ
  deriving DecidableEq

structure WebhookEntry where
  url : Bytes
  secret : Bytes
  deriving DecidableEq

/-! ## Schemas -/

inductive SchemaFormat where
  | jsonSchemaDraft7
  | jsonSchema201909
  | protobuf
  deriving DecidableEq

inductive SchemaCompatibility where
  | full
  | backward
  | forward
  | breaking
  | unknown
  deriving DecidableEq

structure Schema where
  format : SchemaFormat
  version : ℕ
  definition : Bytes
  compatibility : SchemaCompatibility
  deriving DecidableEq

structure MigrationFunction where
  fromVersion : ℕ
  toVersion : ℕ
  name : Symbol
  body : Bytes
  deriving DecidableEq

/-! ## Archive -/

structure ArchiveConfig where
  offchainStorage : Bool
  baseUrl : Bytes
  compression : ℕ
  deriving DecidableEq

/-- On-chain storage, no compression, empty base URL. -/
def ArchiveConfig.defaultConfig : ArchiveConfig := ⟨false, [], 0⟩

structure ArchivedEventRef (D : Type) where
  id : D
  index : ℕ
  checksum : D
  url : Bytes
  archivedAt : ℕ
  deriving DecidableEq

/-! ## Retention -/

structure RetentionPolicyData where
  retentionDays : ℕ
  legalBasis : Symbol
  setBy : Address
  setAt : ℕ
  deriving DecidableEq

structure LegalHoldRecord where
  active : Bool
  reason : Bytes
  placedBy : Address
  placedAt : ℕ
  releasedBy : Option Address
  releasedAt : ℕ
  deriving DecidableEq

structure ComplianceExceptionRecord where
  reason : Bytes
  grantedBy : Address
  grantedAt : ℕ
  expiresAt : ℕ
  deriving DecidableEq

inductive ErasureStatus where
  | pending
  | fulfilled
  | denied
  deriving DecidableEq

structure ErasureRequestData where
  requester : Address
  eventIndex : ℕ
  reason : Symbol
  requestedAt : ℕ
  status : ErasureStatus
  decidedBy : Option Address
  decidedAt : ℕ
  justification : Bytes
  deriving DecidableEq

structure ErasureRecordData (D : Type) where
  erased : Bool
  erasedAt : ℕ
  erasedBy : Address
  originalMetadataHash : D
  reason : Symbol
  deriving DecidableEq

/-! ## Errors -/

/-- The errors the modelled functions raise. -/
inductive ContractError where
  | callerNotOwner
  | globalMaxLogsReached
  | eventTypeMaxLogsReached
  | eventDoesNotExist
  | eventTypeIndexOutOfBounds
  | newOwnerIsZero
  | capNotSet
  | metadataTooLarge
  | contractNotInitialized
  | timestampOutOfRange
  | invalidSignature
  | contractPaused
  | rateLimitExceeded
  | sameOwner
  | maxLogsBelowCurrentCount
  | capAlreadyRemoved
  | capNeverSet
  | nonceTooLow
  | noEventsForType
  | invalidPaginationParams
  | submitterBlocked
  | reentrancyDetected
  | alreadyInitialized
  | nonceExhausted
  | nonceWindowExceeded
  | snapshotNotFound
  | metadataSchemaViolation
  | invalidVersion
  | eventOnLegalHold
  | legalHoldNotFound
  | complianceExceptionActive
  | eventAlreadyErased
  | erasureRequestNotFound
  | erasureRequestAlreadyDecided
  | invalidRetentionPeriod
  | emptyComplianceReason
  | operationalEventNotErasable
  | unauthorizedOpsRecorder
  | roleNotGranted
  deriving DecidableEq

/-! ## Storage keys -/

/-- The constructors of `DataKey` the modelled functions use. -/
inductive DataKey where
  | owner
  | config
  | globalMaxLogs
  | paused
  | submitterBlocklist
  | allowlistMode
  | submitterAllowlist
  | totalEvents
  | eventCapSet
  | eventMaxLogs
  | eventCapRemoved
  | eventCapConfig
  | eventTypeIndices
  | submitterEventIndices
  | submitterEventCount
  | eventData
  | eventOrder
  | eventMetadataMaxSize
  | globalMetadataMaxSize
  | metadataSchema
  | eventSchema
  | schemaVersions
  | eventSchemaMigration
  | runtimeState
  | eventSignature
  | eventTypeCount
  | eventHeaderKey
  | eventMeta
  | eventMetadata
  | eventVersions
  | eventEmissionConfig
  | eventEmissionVersion
  | lowCostMode
  | submitterRateLimit
  | submitterRateState
  | submitterNonce
  | submitterNonceConfig
  | defaultNonceWindowSize
  | defaultNonceMaxValue
  | archivedTotalEvents
  | archivedEventData
  | archivedEventHeaderKey
  | archivedEventMetadata
  | archivedEventOrder
  | eventArchivedFlag
  | owners
  | requiredSignatures
  | proposalCount
  | proposal
  | eventTtl
  | contractVersion
  | eventContentHash
  | categoryMaxLen
  | logEventReentrancyGuard
  | pausedSince
  | webhookRegistrations
  | snapshotCount
  | snapshotData
  | ttlCleanupStats
  | archiveScanCursor
  | retentionPolicy
  | defaultRetentionDays
  | legalHold
  | complianceException
  | erasureRequest
  | erasureRequestCount
  | erasureRecord
  | opsAuditRecorders
  | rbacEnabled
  | role
  | dedupPolicyConfig
  | dedupPolicyConfigForType
  | eventContentHashWithTs
  | eventCustomKey
  | pendingCustomDedupKey
  | archiveConfig
  | archivedCompressedCount
  | archivedOffchainCount
  | archivedEventRefKey
  | eventVersionTag
  deriving DecidableEq

/-- The argument of a key. -/
@[reducible] def DataKey.Key (D : Type) : DataKey → Type
  | submitterBlocklist | submitterAllowlist | submitterEventIndices | submitterEventCount
  | submitterRateLimit | submitterRateState | submitterNonce | submitterNonceConfig | role => Address
  | eventCapSet | eventMaxLogs | eventCapRemoved | eventCapConfig | eventTypeIndices
  | eventMetadataMaxSize | metadataSchema | schemaVersions | eventTypeCount | webhookRegistrations
  | retentionPolicy | dedupPolicyConfigForType => Symbol
  | eventData | eventSignature | eventHeaderKey | eventMeta | eventMetadata | archivedEventData
  | archivedEventHeaderKey | archivedEventMetadata | eventArchivedFlag | eventContentHash
  | eventContentHashWithTs | eventCustomKey | archivedEventRefKey => D
  | eventOrder | eventVersions | archivedEventOrder | proposal | snapshotData | legalHold
  | complianceException | erasureRequest | erasureRecord => ℕ
  | eventSchema => Symbol × ℕ
  | eventSchemaMigration => Symbol × ℕ × ℕ
  | eventVersionTag => ℕ × ℕ
  | owner | config | globalMaxLogs | paused | allowlistMode | totalEvents | globalMetadataMaxSize
  | runtimeState | eventEmissionConfig | eventEmissionVersion | lowCostMode | defaultNonceWindowSize
  | defaultNonceMaxValue | archivedTotalEvents | owners | requiredSignatures | proposalCount
  | eventTtl | contractVersion | categoryMaxLen | logEventReentrancyGuard | pausedSince
  | snapshotCount | ttlCleanupStats | archiveScanCursor | defaultRetentionDays
  | erasureRequestCount | opsAuditRecorders | rbacEnabled | dedupPolicyConfig
  | pendingCustomDedupKey | archiveConfig | archivedCompressedCount | archivedOffchainCount => Unit

/-- The value stored under a key. -/
@[reducible] def DataKey.Val (D : Type) : DataKey → Type
  | owner => Address
  | config => Config
  | runtimeState => RuntimeState
  | paused | submitterBlocklist | allowlistMode | submitterAllowlist | eventCapSet | eventCapRemoved
  | lowCostMode | eventArchivedFlag | logEventReentrancyGuard | rbacEnabled => Bool
  | globalMaxLogs | totalEvents | eventMaxLogs | submitterEventCount | eventMetadataMaxSize
  | globalMetadataMaxSize | eventTypeCount | eventEmissionConfig | eventEmissionVersion
  | submitterRateLimit | defaultNonceWindowSize | defaultNonceMaxValue | archivedTotalEvents
  | requiredSignatures | proposalCount | eventTtl | contractVersion | eventContentHash
  | categoryMaxLen | pausedSince | snapshotCount | archiveScanCursor | defaultRetentionDays
  | erasureRequestCount | eventCustomKey | archivedCompressedCount | archivedOffchainCount => ℕ
  | eventCapConfig => Option ℕ
  | eventTypeIndices | submitterEventIndices | metadataSchema | eventSignature | eventMetadata
  | archivedEventMetadata => Bytes
  | eventData | eventMeta | archivedEventData => Event D
  | eventOrder | archivedEventOrder | pendingCustomDedupKey => D
  | eventSchema => Schema
  | schemaVersions => List ℕ
  | eventSchemaMigration => MigrationFunction
  | eventHeaderKey | archivedEventHeaderKey => EventHeader
  | eventVersions => List (EventVersion D)
  | submitterRateState | eventContentHashWithTs => ℕ × ℕ
  | submitterNonce | submitterNonceConfig => NonceState
  | owners | opsAuditRecorders => List Address
  | proposal => Proposal
  | webhookRegistrations => List WebhookEntry
  | snapshotData => Snapshot D
  | ttlCleanupStats => TtlCleanupStats
  | retentionPolicy => RetentionPolicyData
  | legalHold => LegalHoldRecord
  | complianceException => ComplianceExceptionRecord
  | erasureRequest => ErasureRequestData
  | erasureRecord => ErasureRecordData D
  | role => Role
  | dedupPolicyConfig | dedupPolicyConfigForType => DedupPolicy
  | archiveConfig => ArchiveConfig
  | archivedEventRefKey => ArchivedEventRef D
  | eventVersionTag => Symbol

instance DataKey.decEqKey {D : Type} [DecidableEq D] : (f : DataKey) → DecidableEq (f.Key D)
  | submitterBlocklist | submitterAllowlist | submitterEventIndices | submitterEventCount
  | submitterRateLimit | submitterRateState | submitterNonce | submitterNonceConfig | role =>
    inferInstanceAs (DecidableEq Address)
  | eventCapSet | eventMaxLogs | eventCapRemoved | eventCapConfig | eventTypeIndices
  | eventMetadataMaxSize | metadataSchema | schemaVersions | eventTypeCount | webhookRegistrations
  | retentionPolicy | dedupPolicyConfigForType => inferInstanceAs (DecidableEq String)
  | eventData | eventSignature | eventHeaderKey | eventMeta | eventMetadata | archivedEventData
  | archivedEventHeaderKey | archivedEventMetadata | eventArchivedFlag | eventContentHash
  | eventContentHashWithTs | eventCustomKey | archivedEventRefKey => inferInstanceAs (DecidableEq D)
  | eventOrder | eventVersions | archivedEventOrder | proposal | snapshotData | legalHold
  | complianceException | erasureRequest | erasureRecord => inferInstanceAs (DecidableEq ℕ)
  | eventSchema => inferInstanceAs (DecidableEq (String × ℕ))
  | eventSchemaMigration => inferInstanceAs (DecidableEq (String × ℕ × ℕ))
  | eventVersionTag => inferInstanceAs (DecidableEq (ℕ × ℕ))
  | owner | config | globalMaxLogs | paused | allowlistMode | totalEvents | globalMetadataMaxSize
  | runtimeState | eventEmissionConfig | eventEmissionVersion | lowCostMode | defaultNonceWindowSize
  | defaultNonceMaxValue | archivedTotalEvents | owners | requiredSignatures | proposalCount
  | eventTtl | contractVersion | categoryMaxLen | logEventReentrancyGuard | pausedSince
  | snapshotCount | ttlCleanupStats | archiveScanCursor | defaultRetentionDays
  | erasureRequestCount | opsAuditRecorders | rbacEnabled | dedupPolicyConfig
  | pendingCustomDedupKey | archiveConfig | archivedCompressedCount | archivedOffchainCount =>
    inferInstanceAs (DecidableEq Unit)

/-! ## Notifications -/

/-- A component of a published event. -/
inductive Datum (D : Type) where
  | addr (a : Address)
  | sym (s : Symbol)
  | nat (n : ℕ)
  | bool (b : Bool)
  | bytes (b : Bytes)
  | id (d : D)
  | optNat (o : Option ℕ)
  | optRole (o : Option Role)
  deriving DecidableEq

/-- `env.events().publish(topics, data)` -/
structure Published (D : Type) where
  topics : List Symbol
  data : List (Datum D)
  deriving DecidableEq

/-- The storage of the contract. -/
abbrev layout (D : Type) [DecidableEq D] : Layout where
  Field := DataKey
  Key := DataKey.Key D
  Val := DataKey.Val D
  Note := Published D

/-- The ledger of an `AuditLedger` instance. -/
abbrev State (D : Type) [DecidableEq D] := Ledger (layout D)

/-- A function of the contract. -/
abbrev Fn (D : Type) [DecidableEq D] : Type → Type := Call ContractError (layout D)

/-! ## Storage access -/

section
variable {D : Type} [DecidableEq D]

/-- `env.storage().instance()` -/
abbrev get (f : DataKey) (k : f.Key D) : Fn D (Option (f.Val D)) := Call.load (layout D) f k
abbrev set (f : DataKey) (k : f.Key D) (v : f.Val D) : Fn D Unit := Call.store (layout D) f k v
abbrev remove (f : DataKey) (k : f.Key D) : Fn D Unit := Call.clear (layout D) f k

/-- `env.storage().persistent()` -/
abbrev hasPers (f : DataKey) (k : f.Key D) : Fn D Bool := Call.hasPers (layout D) f k
abbrev setPers (f : DataKey) (k : f.Key D) (v : f.Val D) : Fn D Unit :=
  Call.storePers (layout D) f k v
/-- `env.storage().temporary()` -/
abbrev getTemp (f : DataKey) (k : f.Key D) : Fn D (Option (f.Val D)) :=
  Call.loadTemp (layout D) f k
abbrev setTemp (f : DataKey) (k : f.Key D) (v : f.Val D) : Fn D Unit :=
  Call.storeTemp (layout D) f k v
abbrev removeTemp (f : DataKey) (k : f.Key D) : Fn D Unit := Call.clearTemp (layout D) f k

/-- `env.events().publish(..)` -/
abbrev publish (topics : List Symbol) (data : List (Datum D)) : Fn D Unit :=
  Call.publish (layout D) ⟨topics, data⟩

end

/-! ## The host -/

/-- The hash and the constants the host gives the contract.
    `defaultNonceMaxValue` is the helper of that name, which the source calls
    but does not define, as a function of the stored `DefaultNonceMaxValue`. -/
structure Host (D : Type) where
  /-- `env.crypto().sha256` -/
  sha256 : Bytes → D
  /-- a `BytesN<32>` as `Bytes` -/
  bytesOf : D → Bytes
  /-- `BytesN::from_array(&env, &[0u8; 32])` -/
  zeros : D
  /-- `env.current_contract_address()` -/
  contract : Address
  defaultNonceMaxValue : Option ℕ → ℕ

/-- `NULL_ACCOUNT`: `GAAA…AWHF`. -/
def nullAccount : Address where
  strkey := 71 :: List.replicate 52 65 ++ [87, 72, 70]
  length_eq := by decide

end AuditLedger
