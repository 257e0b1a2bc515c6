/-
  AuditLedger — configuration and governance.

  * the setters of limits, caps, modes and policies;
  * the pause flag, the blocklist and the allowlist;
  * owners, roles and proposals;
  * schemas and webhooks.

  Where a setting is cached in `RuntimeState`, the setter writes the cache with
  `syncRuntimeState`; the setters that do not call it leave the cache as it is.
-/
import AuditTransparency.Ledger.Rewriting

namespace AuditLedger

open Soroban
open Soroban.Call hiding hasPers publish

variable {D : Type} [DecidableEq D]

/-- The owner checks of the functions that refuse to run while paused. -/
def requireGovernance (caller : Address) : Fn D Unit := do
  requireInitialized
  requireAuth caller
  let paused ← get .paused ()
  rejectIf (paused = some true) .contractPaused
  requireOwnerOrMultisig caller

/-- `if let Some(mut rs) = .. { rs.field = ..; .. }` -/
def syncRuntimeState (f : RuntimeState → RuntimeState) : Fn D Unit := do
  let rs ← get .runtimeState ()
  ifSome rs fun rs => set .runtimeState () (f rs)

/-! ## Limits and caps -/

/-- `set_global_max_logs` -/
def setGlobalMaxLogs (caller : Address) (newMax : ℕ) : Fn D Unit := do
  requireGovernance caller
  let total ← totalEvents
  rejectIf (newMax < total) .maxLogsBelowCurrentCount
  let cfg ← unwrap (← get .config ())
  set .config () { cfg with globalMaxLogs := newMax }
  set .globalMaxLogs () newMax
  syncRuntimeState fun rs => { rs with globalMaxLogs := newMax }
  publish ["governance", "set_global_max"] [.addr caller, .nat cfg.globalMaxLogs, .nat newMax]

/-- `set_event_max_logs`.  The index is emptied only without a cap, which has
    just been set. -/
def setEventMaxLogs (caller : Address) (eventType : Symbol) (newMax : ℕ) : Fn D Unit := do
  requireGovernance caller
  validateEventType eventType
  set .eventCapSet eventType true
  set .eventMaxLogs eventType newMax
  set .eventCapConfig eventType (some newMax)
  remove .eventCapRemoved eventType
  let lowCost ← effectiveLowCostMode
  let cap ← get .eventCapConfig eventType
  doIf (¬lowCost ∧ cap.isNone) do
    set .eventTypeIndices eventType []

/-- `remove_event_cap` -/
def removeEventCap (caller : Address) (eventType : Symbol) : Fn D Unit := do
  requireGovernance caller
  let cap ← get .eventCapConfig eventType
  doIf cap.isNone do
    let removed ← get .eventCapRemoved eventType
    rejectIf removed.isSome .capAlreadyRemoved
    trap (.contract .capNeverSet)
  remove .eventCapConfig eventType
  remove .eventMaxLogs eventType
  set .eventCapRemoved eventType true
  publish ["governance", "remove_event_cap"] [.addr caller, .sym eventType]

/-- `set_metadata_max_size` -/
def setMetadataMaxSize (caller : Address) (maxSize : ℕ) : Fn D Unit := do
  requireGovernance caller
  set .globalMetadataMaxSize () maxSize
  syncRuntimeState fun rs => { rs with globalMetadataMaxSize := maxSize }

/-- `set_event_metadata_max_size` -/
def setEventMetadataMaxSize (caller : Address) (eventType : Symbol) (maxSize : ℕ) : Fn D Unit := do
  requireGovernance caller
  set .eventMetadataMaxSize eventType maxSize

/-- `set_metadata_schema` -/
def setMetadataSchema (caller : Address) (eventType : Symbol) (schema : Bytes) : Fn D Unit := do
  requireGovernance caller
  set .metadataSchema eventType schema
  publish ["governance", "set_metadata_schema"]
    [.addr caller, .sym eventType, .nat schema.length]

/-- `set_event_ttl` -/
def setEventTtl (caller : Address) (ttlLedgers : ℕ) : Fn D Unit := do
  requireGovernance caller
  let oldTtl ← get .eventTtl ()
  set .eventTtl () ttlLedgers
  publish ["governance", "set_event_ttl"] [.addr caller, .nat (oldTtl.getD 0), .nat ttlLedgers]

/-- `set_category_max_len` -/
def setCategoryMaxLen (caller : Address) (maxLen : ℕ) : Fn D Unit := do
  requireCaller caller
  set .categoryMaxLen () maxLen

/-- `set_submitter_rate_limit` -/
def setSubmitterRateLimit (caller submitter : Address) (maxPerTimestamp : ℕ) : Fn D Unit := do
  requireCaller caller
  set .submitterRateLimit submitter maxPerTimestamp

/-! ## Modes -/

/-- `set_event_emission_mode` -/
def setEventEmissionMode (caller : Address) (mode : ℕ) : Fn D Unit := do
  requireCaller caller
  set .eventEmissionConfig () mode
  set .eventEmissionVersion () 2
  syncRuntimeState fun rs => { rs with emissionMode := mode }

/-- `set_low_cost_mode` -/
def setLowCostMode (caller : Address) (enabled : Bool) : Fn D Unit := do
  requireCaller caller
  set .lowCostMode () enabled
  syncRuntimeState fun rs => { rs with lowCostMode := enabled }

/-- `pause` -/
def pause (caller : Address) : Fn D Unit := do
  requireCaller caller
  set .paused () true
  publish ["contract_paused"] [.addr caller]

/-- `unpause` -/
def unpause (caller : Address) : Fn D Unit := do
  requireCaller caller
  set .paused () false
  remove .pausedSince ()
  publish ["contract_unpaused"] [.addr caller]

/-- `block_submitter` -/
def blockSubmitter (caller submitter : Address) : Fn D Unit := do
  requireCaller caller
  set .submitterBlocklist submitter true
  publish ["submitter_blocked"] [.addr submitter, .addr caller]

/-- `unblock_submitter` -/
def unblockSubmitter (caller submitter : Address) : Fn D Unit := do
  requireCaller caller
  remove .submitterBlocklist submitter
  publish ["submitter_unblocked"] [.addr submitter, .addr caller]

/-- `enable_allowlist_mode` -/
def enableAllowlistMode (caller : Address) : Fn D Unit := do
  requireCaller caller
  set .allowlistMode () true
  syncRuntimeState fun rs => { rs with allowlistMode := true }
  publish ["allowlist_enabled"] [.addr caller]

/-- `disable_allowlist_mode` -/
def disableAllowlistMode (caller : Address) : Fn D Unit := do
  requireCaller caller
  set .allowlistMode () false
  publish ["allowlist_disabled"] [.addr caller]

/-- `allow_submitter` -/
def allowSubmitter (caller submitter : Address) : Fn D Unit := do
  requireCaller caller
  set .submitterAllowlist submitter true
  publish ["submitter_allowed"] [.addr submitter, .addr caller]

/-- `remove_submitter_from_allowlist` -/
def removeSubmitterFromAllowlist (caller submitter : Address) : Fn D Unit := do
  requireCaller caller
  remove .submitterAllowlist submitter
  publish ["submitter_removed_from_allowlist"] [.addr submitter, .addr caller]

/-- `set_dedup_policy`.  Every policy has a valid discriminant. -/
def setDedupPolicy (caller : Address) (policy : DedupPolicy) : Fn D Unit := do
  requireCaller caller
  set .dedupPolicyConfig () policy
  publish ["dedup", "policy_set"] [.addr caller, .nat policy.disc]

/-- `set_dedup_policy_for_type` -/
def setDedupPolicyForType (caller : Address) (eventType : Symbol) (policy : Option DedupPolicy) :
    Fn D Unit := do
  requireCaller caller
  onSome policy
    (fun p => set .dedupPolicyConfigForType eventType p)
    (remove .dedupPolicyConfigForType eventType)
  publish ["dedup", "policy_set_type"]
    [.addr caller, .sym eventType, .optNat (policy.map DedupPolicy.disc)]

/-- `set_archive_config` -/
def setArchiveConfig (caller : Address) (config : ArchiveConfig) : Fn D Unit := do
  requireCaller caller
  set .archiveConfig () config
  publish ["archive", "config_set"]
    [.addr caller, .bool config.offchainStorage, .nat config.compression]

/-! ## Owners and roles -/

/-- `transfer_ownership` -/
def transferOwnership (caller newOwner : Address) : Fn D Unit := do
  requireGovernance caller
  let current ← unwrap (← get .owner ())
  rejectIf (newOwner = nullAccount) .newOwnerIsZero
  rejectIf (newOwner = current) .sameOwner
  set .owner () newOwner
  let owners ← getOwners
  set .owners () (owners.replace current newOwner)
  let rbac ← rbacEnabled
  doIf rbac do
    set .role newOwner .admin
    let role ← getRoleOf current
    doIf (role = some .admin) do
      remove .role current
  publish ["governance", "transfer_ownership"] [.addr caller, .addr current, .addr newOwner]

/-- `add_owner` -/
def addOwner (caller newOwner : Address) : Fn D Unit := do
  requireAuth caller
  requireOwnerOrMultisig caller
  rejectIf (newOwner = nullAccount) .newOwnerIsZero
  let owners ← getOwners
  doIf (newOwner ∉ owners) do
    set .owners () (owners ++ [newOwner])
    let rbac ← rbacEnabled
    doIf rbac do
      set .role newOwner .admin
    publish ["owner_added"] [.addr newOwner]

/-- `remove_owner` -/
def removeOwner (caller ownerToRemove : Address) : Fn D Unit := do
  requireAuth caller
  requireOwnerOrMultisig caller
  let owners ← getOwners
  doIf (ownerToRemove ∈ owners) do
    let rest := owners.filter (· ≠ ownerToRemove)
    let req ← getRequiredSignatures
    doIf (req > rest.length) do
      set .requiredSignatures () rest.length
    set .owners () rest
    publish ["owner_removed"] [.addr ownerToRemove]

/-- `set_required_signatures` -/
def setRequiredSignatures (caller : Address) (required : ℕ) : Fn D Unit := do
  requireAuth caller
  requireOwnerOrMultisig caller
  let owners ← getOwners
  doIf (¬(required = 0 ∨ required > owners.length)) do
    set .requiredSignatures () required
    publish ["required_signatures_set"] [.nat required]

/-- The checks of `set_role` and `enable_rbac`. -/
def requireAdmin (caller : Address) : Fn D Unit := do
  requireInitialized
  requireAuth caller
  let rbac ← rbacEnabled
  if rbac then
    requireRoleMin caller .admin
  else
    requireOwnerOrMultisig caller

/-- `set_role` -/
def setRole (caller target : Address) (role : Option Role) : Fn D Unit := do
  requireAdmin caller
  onSome role (fun r => set .role target r) (remove .role target)
  publish ["rbac", "role_set"] [.addr caller, .addr target, .optRole role]

/-- `enable_rbac` -/
def enableRbac (caller : Address) (enabled : Bool) : Fn D Unit := do
  requireAdmin caller
  set .rbacEnabled () enabled
  publish ["rbac", "rbac_toggled"] [.addr caller, .bool enabled]

/-! ## Proposals -/

/-- `submit_proposal` -/
def submitProposal (proposer : Address) (action : ProposalAction) (ttlSeconds : ℕ) : Fn D ℕ := do
  requireAuth proposer
  let isOwner ← isAddrOwner proposer
  rejectIf (¬isOwner) .callerNotOwner
  let id := (← get .proposalCount ()).getD 0
  let now := (← getEnv).timestamp
  let expiresAt ← addChecked 64 now ttlSeconds
  set .proposal id ⟨id, proposer, action, [proposer], expiresAt, false⟩
  let count ← addChecked 32 id 1
  set .proposalCount () count
  publish ["proposal_submitted"] [.nat id]
  return id

/-- `approve_proposal` -/
def approveProposal (approver : Address) (proposalId : ℕ) : Fn D Unit := do
  requireAuth approver
  let isOwner ← isAddrOwner approver
  rejectIf (¬isOwner) .callerNotOwner
  let prop ← unwrapOr (← get .proposal proposalId) .eventDoesNotExist
  let now := (← getEnv).timestamp
  doIf (¬prop.executed ∧ ¬prop.expiresAt < now ∧ approver ∉ prop.approvals) do
    set .proposal proposalId { prop with approvals := prop.approvals ++ [approver] }
    publish ["proposal_approved"] [.nat proposalId, .addr approver]

/-- The action of an executed proposal. -/
def performAction (H : Host D) (executor : Address) : ProposalAction → Fn D Unit
  | .transferOwnership newOwner => set .owner () newOwner
  | .addOwner addr => do
    let owners ← getOwners
    doIf (addr ∉ owners) do
      set .owners () (owners ++ [addr])
  | .removeOwner addr => do
    let owners ← getOwners
    set .owners () (owners.filter (· ≠ addr))
  | .setRequiredSignatures req => set .requiredSignatures () req
  | .setGlobalMaxLogs v => do
    let cfg ← get .config ()
    ifSome cfg fun cfg => set .config () { cfg with globalMaxLogs := v }
  | .setMetadataSchema eventType schema => set .metadataSchema eventType schema
  | .rollbackEvent index targetVersion => do
    let _ ← rollbackEvent H executor index targetVersion
  | .pause => set .paused () true
  | .unpause => set .paused () false

/-- `execute_proposal` -/
def executeProposal (H : Host D) (executor : Address) (proposalId : ℕ) : Fn D Unit := do
  requireAuth executor
  let isOwner ← isAddrOwner executor
  rejectIf (¬isOwner) .callerNotOwner
  let prop ← unwrapOr (← get .proposal proposalId) .eventDoesNotExist
  let now := (← getEnv).timestamp
  let needed ← getRequiredSignatures
  doIf (¬prop.executed ∧ ¬prop.expiresAt < now ∧ ¬prop.approvals.length < needed) do
    performAction H executor prop.action
    set .proposal proposalId { prop with executed := true }
    publish ["proposal_executed"] [.nat proposalId, .addr executor]

/-! ## Schemas and webhooks -/

/-- `insert_u32_sorted`: before the first greater value, else at the end. -/
def insertU32Sorted : List ℕ → ℕ → List ℕ
  | [], target => [target]
  | v :: values, target =>
    if v > target then target :: v :: values else v :: insertU32Sorted values target

/-- `register_schema` -/
def registerSchema (caller : Address) (eventType : Symbol) (schema : Schema) (version : ℕ) :
    Fn D Unit := do
  requireGovernance caller
  rejectIf (version = 0 ∨ schema.version ≠ version) .invalidVersion
  let versions := (← get .schemaVersions eventType).getD []
  doIf (version ∉ versions) do
    set .schemaVersions eventType (insertU32Sorted versions version)
  set .eventSchema (eventType, version) schema
  publish ["governance", "register_schema"] [.addr caller, .sym eventType, .nat version]

/-- `migrate_event_metadata` -/
def migrateEventMetadata (caller : Address) (eventType : Symbol) (fromVersion toVersion : ℕ)
    (migrationFn : MigrationFunction) : Fn D Unit := do
  requireGovernance caller
  rejectIf (fromVersion = 0 ∨ toVersion = 0 ∨ fromVersion = toVersion) .invalidVersion
  rejectIf (migrationFn.fromVersion ≠ fromVersion ∨ migrationFn.toVersion ≠ toVersion)
    .invalidVersion
  set .eventSchemaMigration (eventType, fromVersion, toVersion) migrationFn
  publish ["governance", "migrate_event_metadata"]
    [.addr caller, .sym eventType, .nat fromVersion, .nat toVersion]

/-- `register_webhook` -/
def registerWebhook (caller : Address) (eventType : Symbol) (url secret : Bytes) : Fn D Unit := do
  requireInitialized
  requireAuth caller
  requireOwner caller
  let list := (← get .webhookRegistrations eventType).getD []
  set .webhookRegistrations eventType (list ++ [⟨url, secret⟩])
  publish ["governance", "register_webhook"] [.addr caller, .sym eventType, .bytes url]

/-- `unregister_webhook`: the first entry with this URL goes. -/
def unregisterWebhook (caller : Address) (eventType : Symbol) (url : Bytes) : Fn D Unit := do
  requireInitialized
  requireAuth caller
  requireOwner caller
  let list := (← get .webhookRegistrations eventType).getD []
  set .webhookRegistrations eventType (list.eraseP fun e => e.url = url)
  publish ["governance", "unregister_webhook"] [.addr caller, .sym eventType, .bytes url]

/-! ## Reading and writing -/

set_option synthInstance.maxSize 1000000000

section
variable {W : List DataKey}

instance (caller : Address) : Reads (requireGovernance caller : Fn D _) := by
  unfold requireGovernance; infer_instance
instance (caller : Address) : Reads (requireAdmin caller : Fn D _) := by
  unfold requireAdmin; infer_instance
instance (f : RuntimeState → RuntimeState) [In .runtimeState W] :
    Writes (layout D) W (syncRuntimeState f) := by
  unfold syncRuntimeState; infer_instance

/-- What an executed proposal writes. -/
abbrev actionWrites : List DataKey :=
  [.owner, .owners, .requiredSignatures, .config, .metadataSchema, .paused] ++ rewriteWrites

instance (H : Host D) (executor : Address) (action : ProposalAction) [Sub actionWrites W] :
    Writes (layout D) W (performAction H executor action) :=
  Writes.mono (V := actionWrites) (by cases action <;> unfold performAction <;> infer_instance)

end

end AuditLedger
