/-
  MultiTenantLedger — the entry points (`src/multi_tenant.rs`).

  `Op` has one constructor for every entry point that can write, and `exec` runs
  it; `Query` has one for every entry point that reads a tenant, and `ask` runs it.
  Each names one tenant.  The contract has no constructor: it starts on empty
  storage.
-/
import AuditTransparency.MultiTenant.Types
import AuditTransparency.Soroban.Script

namespace MultiTenantLedger

open Soroban
open Soroban.Call hiding publish
open AuditLedger (u32ToBytes)

variable {D : Type} [DecidableEq D]

/-! ## Helpers -/

/-- `get_tenant_ids` -/
def getTenantIds : Fn D (List Symbol) := do return (← get .tenantIds ()).getD []

/-- `save_tenant_ids` -/
def saveTenantIds (ids : List Symbol) : Fn D Unit := set .tenantIds () ids

/-- `tenant_exists` -/
def tenantExists (tenantId : Symbol) : Fn D Bool := do return (← get .tenantConfig tenantId).isSome

/-- `save_tenant_config` -/
def saveTenantConfig (tenantId : Symbol) (config : TenantConfig) : Fn D Unit :=
  set .tenantConfig tenantId config

/-- `get_tenant_config(..).unwrap_or_else(|| panic_with_error!(.., TenantNotFound))` -/
def tenantConfig (tenantId : Symbol) : Fn D TenantConfig := do
  unwrapOr (← get .tenantConfig tenantId) .tenantNotFound

/-- `is_tenant_admin` -/
def isTenantAdmin (tenantId : Symbol) (addr : Address) : Fn D Bool := do
  return (← get .tenantAdmin (tenantId, addr)).getD false

/-- `require_tenant_admin` -/
def requireTenantAdmin (tenantId : Symbol) (caller : Address) : Fn D Unit := do
  let admin ← isTenantAdmin tenantId caller
  rejectIf (admin = false) .notTenantAdmin

/-- `require_active_tenant` -/
def requireActiveTenant (config : TenantConfig) : Fn D Unit :=
  match config.status with
  | .active => pure ()
  | .suspended => trap (.contract .tenantSuspended)
  | .archived => trap (.contract .tenantArchived)
  | .deleted => trap (.contract .tenantDeleted)

/-- `get_tenant_type_count` -/
def getTenantTypeCount (tenantId eventType : Symbol) : Fn D ℕ := do
  return (← get .tenantTypeCount (tenantId, eventType)).getD 0

/-- `if max_metadata_bytes == 0 { 1024u32 } else { max_metadata_bytes }` -/
def effectiveMaxMetadata (maxMetadataBytes : ℕ) : ℕ :=
  if maxMetadataBytes = 0 then 1024 else maxMetadataBytes

/-! ## Lifecycle -/

/-- The registry of all tenants, with one more. -/
def registerTenant (tenantId : Symbol) : Fn D Unit := do
  let ids ← getTenantIds
  saveTenantIds (ids ++ [tenantId])

/-- `initialize_tenant` -/
def initializeTenant (H : Host D) (caller : Address) (tenantId : Symbol)
    (maxEvents maxMetadataBytes rateLimit : ℕ) (description : Bytes) : Fn D TenantConfig := do
  requireAuth caller
  let present ← tenantExists tenantId
  rejectIf present .tenantAlreadyExists
  let now := (← getEnv).timestamp
  let config : TenantConfig := {
    tenantId
    creator := caller
    status := .active
    maxEvents
    maxMetadataBytes := effectiveMaxMetadata maxMetadataBytes
    rateLimit
    createdAt := now
    updatedAt := now
    totalEvents := 0
    description }
  saveTenantConfig tenantId config
  set .tenantAdmin (tenantId, caller) true
  registerTenant tenantId
  set .tenantPrevHash tenantId H.zeros
  publish ["tenant", "created"] [.addr caller, .sym tenantId]
  return config

/-- The start of every entry point for admins. -/
def adminConfig (caller : Address) (tenantId : Symbol) : Fn D TenantConfig := do
  requireAuth caller
  requireTenantAdmin tenantId caller
  tenantConfig tenantId

/-- Writes a new status and the time of the change. -/
def changeStatus (caller : Address) (tenantId : Symbol) (config : TenantConfig)
    (status : TenantStatus) (topic : Symbol) : Fn D Unit := do
  let now := (← getEnv).timestamp
  saveTenantConfig tenantId { config with status, updatedAt := now }
  publish ["tenant", topic] [.addr caller, .sym tenantId]

/-- `suspend_tenant` -/
def suspendTenant (caller : Address) (tenantId : Symbol) : Fn D Unit := do
  let config ← adminConfig caller tenantId
  match config.status with
  | .active => changeStatus caller tenantId config .suspended "suspended"
  | .suspended => return
  | .archived => trap (.contract .tenantArchived)
  | .deleted => trap (.contract .tenantDeleted)

/-- `resume_tenant` -/
def resumeTenant (caller : Address) (tenantId : Symbol) : Fn D Unit := do
  let config ← adminConfig caller tenantId
  match config.status with
  | .suspended => changeStatus caller tenantId config .active "resumed"
  | .active => return
  | .archived => trap (.contract .tenantArchived)
  | .deleted => trap (.contract .tenantDeleted)

/-- `archive_tenant` -/
def archiveTenant (caller : Address) (tenantId : Symbol) : Fn D Unit := do
  let config ← adminConfig caller tenantId
  rejectIf (config.status = .deleted) .tenantDeleted
  doIf (config.status ≠ .archived) (changeStatus caller tenantId config .archived "archived")

/-- `delete_tenant`: the configuration stays as a tombstone. -/
def deleteTenant (caller : Address) (tenantId : Symbol) (force : Bool) : Fn D Unit := do
  let config ← adminConfig caller tenantId
  rejectIf (config.status ≠ .archived) .tenantArchived
  rejectIf (force = false ∧ config.totalEvents > 0) .tenantHasEvents
  changeStatus caller tenantId config .deleted "deleted"

/-! ## Governance -/

/-- The start of every entry point for admins of a tenant that is not deleted. -/
def liveAdminConfig (caller : Address) (tenantId : Symbol) : Fn D TenantConfig := do
  let config ← adminConfig caller tenantId
  rejectIf (config.status = .deleted) .tenantDeleted
  return config

/-- `add_tenant_admin` -/
def addTenantAdmin (caller : Address) (tenantId : Symbol) (newAdmin : Address) : Fn D Unit := do
  let _ ← liveAdminConfig caller tenantId
  set .tenantAdmin (tenantId, newAdmin) true
  publish ["tenant", "admin_added"] [.addr caller, .sym tenantId, .addr newAdmin]

/-- `remove_tenant_admin` -/
def removeTenantAdmin (caller : Address) (tenantId : Symbol) (admin : Address) : Fn D Unit := do
  let _ ← liveAdminConfig caller tenantId
  remove .tenantAdmin (tenantId, admin)
  publish ["tenant", "admin_removed"] [.addr caller, .sym tenantId, .addr admin]

/-- `update_tenant_config` -/
def updateTenantConfig (caller : Address) (tenantId : Symbol)
    (maxEvents maxMetadataBytes rateLimit : ℕ) (description : Bytes) : Fn D Unit := do
  let config ← liveAdminConfig caller tenantId
  let now := (← getEnv).timestamp
  saveTenantConfig tenantId { config with
    maxEvents
    maxMetadataBytes := effectiveMaxMetadata maxMetadataBytes
    rateLimit
    description
    updatedAt := now }
  publish ["tenant", "config_updated"] [.addr caller, .sym tenantId]

/-- `set_tenant_type_cap` -/
def setTenantTypeCap (caller : Address) (tenantId eventType : Symbol) (cap : ℕ) : Fn D Unit := do
  let _ ← liveAdminConfig caller tenantId
  if cap = 0 then remove .tenantCapConfig (tenantId, eventType)
  else set .tenantCapConfig (tenantId, eventType) cap
  publish ["tenant", "type_cap_set"] [.addr caller, .sym tenantId, .sym eventType, .nat cap]

/-! ## Logging -/

/-- The cap check of `log_tenant_event`. -/
def checkTypeCap (tenantId eventType : Symbol) : Fn D Unit := do
  let cap ← get .tenantCapConfig (tenantId, eventType)
  ifSome cap fun cap => do
    let typeCount ← getTenantTypeCount tenantId eventType
    rejectIf (typeCount ≥ cap) .tenantTypeCapExceeded

/-- The rate limit check of `log_tenant_event`. -/
def checkRate (tenantId : Symbol) (submitter : Address) (rateLimit now : ℕ) : Fn D Unit :=
  doIf (rateLimit > 0) do
    let state := (← get .tenantRateState (tenantId, submitter)).getD (0, 0)
    if now = state.1 then do
      rejectIf (state.2 ≥ rateLimit) .tenantRateLimitExceeded
      let count ← addChecked 32 state.2 1
      set .tenantRateState (tenantId, submitter) (now, count)
    else set .tenantRateState (tenantId, submitter) (now, 1)

/-- The checks of `log_tenant_event`, up to the event; returns the configuration. -/
def admitTenantEvent (submitter : Address) (tenantId eventType : Symbol) (metadata : Bytes) :
    Fn D TenantConfig := do
  requireAuth submitter
  let config ← tenantConfig tenantId
  requireActiveTenant config
  rejectIf (config.maxEvents > 0 ∧ config.totalEvents ≥ config.maxEvents) .tenantQuotaExceeded
  rejectIf (metadata.length > config.maxMetadataBytes) .tenantMetadataTooLarge
  checkTypeCap tenantId eventType
  let now := (← getEnv).timestamp
  checkRate tenantId submitter config.rateLimit now
  return config

/-- The event, linked to the one before. -/
def buildTenantEvent (H : Host D) (submitter : Address) (tenantId eventType : Symbol)
    (metadata : Bytes) (subEventType : Option Symbol) (index : ℕ) : Fn D (TenantEvent D) := do
  let env ← getEnv
  let prev ← get .tenantPrevHash tenantId
  return {
    tenantId, index
    timestamp := env.timestamp
    eventType, submitter, metadata, subEventType
    eventId := computeTenantEventId H env tenantId submitter eventType metadata env.timestamp
    prevHash := prev.getD H.zeros }

/-- The packed positions and the count of a type.  The length of a `Bytes` value is a `u32`. -/
def indexTenantEvent (tenantId eventType : Symbol) (index : ℕ) : Fn D Unit := do
  let typeCount ← getTenantTypeCount tenantId eventType
  let typeIndices := (← get .tenantTypeIndices (tenantId, eventType)).getD []
  let _ ← addChecked 32 typeIndices.length 4
  set .tenantTypeIndices (tenantId, eventType) (typeIndices ++ u32ToBytes index)
  let typeCount ← addChecked 32 typeCount 1
  set .tenantTypeCount (tenantId, eventType) typeCount

/-- `log_tenant_event` -/
def logTenantEvent (H : Host D) (submitter : Address) (tenantId eventType : Symbol)
    (metadata : Bytes) (subEventType : Option Symbol) : Fn D D := do
  let config ← admitTenantEvent submitter tenantId eventType metadata
  let event ← buildTenantEvent H submitter tenantId eventType metadata subEventType config.totalEvents
  set .tenantEventData (tenantId, event.eventId) event
  set .tenantEventOrder (tenantId, config.totalEvents) event.eventId
  set .tenantPrevHash tenantId event.eventId
  indexTenantEvent tenantId eventType config.totalEvents
  let total ← addChecked 32 config.totalEvents 1
  saveTenantConfig tenantId { config with totalEvents := total, updatedAt := event.timestamp }
  set .tenantEventCount tenantId total
  publish ["tenant", "event_logged"]
    [.sym tenantId, .addr submitter, .sym eventType, .id event.eventId]
  return event.eventId

/-! ## Queries -/

/-- The start of the queries on a tenant: any tenant that is not deleted. -/
def readableConfig (tenantId : Symbol) : Fn D TenantConfig := do
  let config ← tenantConfig tenantId
  rejectIf (config.status = .deleted) .tenantDeleted
  return config

/-- `get_tenant_event` -/
def getTenantEvent (tenantId : Symbol) (eventId : D) : Fn D (TenantEvent D) := do
  let _ ← readableConfig tenantId
  unwrapOr (← get .tenantEventData (tenantId, eventId)) .tenantEventNotFound

/-- The event at a position of the order. -/
def tenantEventAt (tenantId : Symbol) (index : ℕ) : Fn D (TenantEvent D) := do
  let eventId ← unwrapOr (← get .tenantEventOrder (tenantId, index)) .tenantEventNotFound
  unwrapOr (← get .tenantEventData (tenantId, eventId)) .tenantEventNotFound

/-- `get_tenant_event_by_index` -/
def getTenantEventByIndex (tenantId : Symbol) (index : ℕ) : Fn D (TenantEvent D) := do
  let config ← readableConfig tenantId
  rejectIf (index ≥ config.totalEvents) .tenantTypeIndexOutOfBounds
  tenantEventAt tenantId index

/-- The position at `k` in the packed positions; bytes that are not there count as zero. -/
def packedPosition (typeIndices : Bytes) (k : ℕ) : Fn D ℕ := do
  let byteOffset ← mulChecked 32 k 4
  let b0 := typeIndices[byteOffset]?.getD 0
  let b1 := typeIndices[← addChecked 32 byteOffset 1]?.getD 0
  let b2 := typeIndices[← addChecked 32 byteOffset 2]?.getD 0
  let b3 := typeIndices[← addChecked 32 byteOffset 3]?.getD 0
  return word b0 b1 b2 b3

/-- `get_tenant_event_by_type` -/
def getTenantEventByType (tenantId eventType : Symbol) (typeIndex : ℕ) : Fn D (TenantEvent D) := do
  let _ ← readableConfig tenantId
  let typeCount ← getTenantTypeCount tenantId eventType
  rejectIf (typeIndex ≥ typeCount) .tenantTypeIndexOutOfBounds
  let typeIndices ← unwrapOr (← get .tenantTypeIndices (tenantId, eventType)) .tenantEventNotFound
  tenantEventAt tenantId (← packedPosition typeIndices typeIndex)

/-- `tenant_total_events` -/
def tenantTotalEvents (tenantId : Symbol) : Fn D ℕ := do return (← readableConfig tenantId).totalEvents

/-- `tenant_event_count_by_type` -/
def tenantEventCountByType (tenantId eventType : Symbol) : Fn D ℕ := do
  let _ ← readableConfig tenantId
  getTenantTypeCount tenantId eventType

/-- `tenant_accessible` -/
def tenantAccessible (tenantId : Symbol) : Fn D Bool := do
  match ← get .tenantConfig tenantId with
  | none => return false
  | some c => return c.status = .active ∨ c.status = .suspended

/-! ## Entry points -/

/-- The entry points that can write. -/
inductive Op where
  | initializeTenant (caller : Address) (tenantId : Symbol) (maxEvents maxMetadataBytes rateLimit : ℕ)
      (description : Bytes)
  | suspendTenant (caller : Address) (tenantId : Symbol)
  | resumeTenant (caller : Address) (tenantId : Symbol)
  | archiveTenant (caller : Address) (tenantId : Symbol)
  | deleteTenant (caller : Address) (tenantId : Symbol) (force : Bool)
  | addTenantAdmin (caller : Address) (tenantId : Symbol) (newAdmin : Address)
  | removeTenantAdmin (caller : Address) (tenantId : Symbol) (admin : Address)
  | updateTenantConfig (caller : Address) (tenantId : Symbol)
      (maxEvents maxMetadataBytes rateLimit : ℕ) (description : Bytes)
  | setTenantTypeCap (caller : Address) (tenantId eventType : Symbol) (cap : ℕ)
  | logTenantEvent (submitter : Address) (tenantId eventType : Symbol) (metadata : Bytes)
      (subEventType : Option Symbol)
  deriving DecidableEq

/-- The tenant an operation names. -/
def Op.tenant : Op → Symbol
  | initializeTenant _ t .. | suspendTenant _ t | resumeTenant _ t | archiveTenant _ t
  | deleteTenant _ t _ | addTenantAdmin _ t _ | removeTenantAdmin _ t _ | updateTenantConfig _ t ..
  | setTenantTypeCap _ t .. | logTenantEvent _ t .. => t

/-- What an entry point returns. -/
inductive Ret (D : Type) where
  | unit
  | nat (n : ℕ)
  | bool (b : Bool)
  | id (d : D)
  | config (c : TenantConfig)
  | event (e : TenantEvent D)
  deriving DecidableEq

/-- Runs an entry point. -/
def exec (H : Host D) : Op → Fn D (Ret D)
  | .initializeTenant a t n m r d => return .config (← initializeTenant H a t n m r d)
  | .suspendTenant a t => do suspendTenant a t; return .unit
  | .resumeTenant a t => do resumeTenant a t; return .unit
  | .archiveTenant a t => do archiveTenant a t; return .unit
  | .deleteTenant a t f => do deleteTenant a t f; return .unit
  | .addTenantAdmin a t b => do addTenantAdmin a t b; return .unit
  | .removeTenantAdmin a t b => do removeTenantAdmin a t b; return .unit
  | .updateTenantConfig a t n m r d => do updateTenantConfig a t n m r d; return .unit
  | .setTenantTypeCap a t y n => do setTenantTypeCap a t y n; return .unit
  | .logTenantEvent a t y m u => return .id (← logTenantEvent H a t y m u)

/-- A host to evaluate the contract with: byte strings are their own digests. -/
def plainHost : Host Bytes := ⟨id, List.replicate 32 0⟩

/-- The queries on a tenant. -/
inductive Query (D : Type) where
  | getTenantConfig (tenantId : Symbol)
  | getTenantEvent (tenantId : Symbol) (eventId : D)
  | getTenantEventByIndex (tenantId : Symbol) (index : ℕ)
  | getTenantEventByType (tenantId eventType : Symbol) (typeIndex : ℕ)
  | tenantTotalEvents (tenantId : Symbol)
  | tenantEventCountByType (tenantId eventType : Symbol)
  | isTenantAdmin (tenantId : Symbol) (addr : Address)
  | tenantAccessible (tenantId : Symbol)

/-- The tenant a query names. -/
def Query.tenant : Query D → Symbol
  | getTenantConfig t | getTenantEvent t _ | getTenantEventByIndex t _ | getTenantEventByType t ..
  | tenantTotalEvents t | tenantEventCountByType t _ | isTenantAdmin t _ | tenantAccessible t => t

/-- Runs a query. -/
def ask : Query D → Fn D (Ret D)
  | .getTenantConfig t => return .config (← tenantConfig t)
  | .getTenantEvent t d => return .event (← getTenantEvent t d)
  | .getTenantEventByIndex t i => return .event (← getTenantEventByIndex t i)
  | .getTenantEventByType t y k => return .event (← getTenantEventByType t y k)
  | .tenantTotalEvents t => return .nat (← tenantTotalEvents t)
  | .tenantEventCountByType t y => return .nat (← tenantEventCountByType t y)
  | .isTenantAdmin t a => return .bool (← isTenantAdmin t a)
  | .tenantAccessible t => return .bool (← tenantAccessible t)

end MultiTenantLedger
