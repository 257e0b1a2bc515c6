/-
  AuditLedger — retention, legal hold, erasure and the operational log
  (`src/data_retention.rs`).

  Erasure rewrites the metadata of an event to the empty string with
  `update_event`, and records the digest of what was there.
-/
import AuditTransparency.Ledger.Rewriting

namespace AuditLedger

open Soroban
open Soroban.Call hiding hasPers publish

variable {D : Type} [DecidableEq D]

/-- `operational_category` -/
def operationalCategory : Symbol := "operational"

/-! ## Policies, holds and exceptions -/

/-- `set_retention_policy` -/
def setRetentionPolicy (caller : Address) (category : Symbol) (retentionDays : ℕ)
    (legalBasis : Symbol) : Fn D Unit := do
  requireCaller caller
  rejectIf (retentionDays = 0) .invalidRetentionPeriod
  let now := (← getEnv).timestamp
  set .retentionPolicy category ⟨retentionDays, legalBasis, caller, now⟩
  publish ["compliance", "retention_policy_set"]
    [.addr caller, .sym category, .nat retentionDays, .sym legalBasis]

/-- `set_default_retention_days` -/
def setDefaultRetentionDays (caller : Address) (days : ℕ) : Fn D Unit := do
  requireCaller caller
  set .defaultRetentionDays () days
  publish ["compliance", "default_retention_set"] [.addr caller, .nat days]

/-- `retention_days_for` -/
def retentionDaysFor (category : Symbol) : Fn D ℕ := do
  let policy ← get .retentionPolicy category
  let default ← get .defaultRetentionDays ()
  return ((policy.map (·.retentionDays)).or default).getD 0

/-- `place_legal_hold` -/
def placeLegalHold (caller : Address) (eventIndex : ℕ) (reason : Bytes) : Fn D Unit := do
  requireCaller caller
  rejectIf (reason = []) .emptyComplianceReason
  let total ← totalEvents
  rejectIf (eventIndex ≥ total) .eventDoesNotExist
  let now := (← getEnv).timestamp
  set .legalHold eventIndex ⟨true, reason, caller, now, none, 0⟩
  publish ["compliance", "legal_hold_placed"] [.addr caller, .nat eventIndex]

/-- `release_legal_hold` -/
def releaseLegalHold (caller : Address) (eventIndex : ℕ) (justification : Bytes) : Fn D Unit := do
  requireCaller caller
  let hold ← unwrapOr (← get .legalHold eventIndex) .legalHoldNotFound
  rejectIf (¬hold.active) .legalHoldNotFound
  let now := (← getEnv).timestamp
  set .legalHold eventIndex { hold with active := false, releasedBy := some caller, releasedAt := now }
  publish ["compliance", "legal_hold_released"]
    [.addr caller, .nat eventIndex, .nat justification.length]

/-- `is_under_legal_hold` -/
def isUnderLegalHold (eventIndex : ℕ) : Fn D Bool := do
  return ((← get .legalHold eventIndex).map (·.active)).getD false

/-- `grant_compliance_exception` -/
def grantComplianceException (caller : Address) (eventIndex : ℕ) (reason : Bytes) (expiresAt : ℕ) :
    Fn D Unit := do
  requireCaller caller
  rejectIf (reason = []) .emptyComplianceReason
  let total ← totalEvents
  rejectIf (eventIndex ≥ total) .eventDoesNotExist
  let now := (← getEnv).timestamp
  set .complianceException eventIndex ⟨reason, caller, now, expiresAt⟩
  publish ["compliance", "exception_granted"] [.addr caller, .nat eventIndex, .nat expiresAt]

/-- `revoke_compliance_exception` -/
def revokeComplianceException (caller : Address) (eventIndex : ℕ) : Fn D Unit := do
  requireCaller caller
  remove .complianceException eventIndex
  publish ["compliance", "exception_revoked"] [.addr caller, .nat eventIndex]

/-- `has_active_compliance_exception` -/
def hasActiveComplianceException (eventIndex : ℕ) : Fn D Bool := do
  let exception ← get .complianceException eventIndex
  let now := (← getEnv).timestamp
  return (exception.map fun e => decide (e.expiresAt = 0 ∨ e.expiresAt > now)).getD false

/-! ## Erasure -/

/-- `get_event_by_order` -/
def getEventByOrder (order : ℕ) : Fn D (Event D) := do
  requireInitialized
  let id ← unwrapOr (← get .eventOrder order) .eventDoesNotExist
  unwrapOr (← get .eventData id) .eventDoesNotExist

/-- `is_event_erased` -/
def isEventErased (eventIndex : ℕ) : Fn D Bool := do
  return ((← get .erasureRecord eventIndex).map (·.erased)).getD false

/-- `request_erasure` -/
def requestErasure (requester : Address) (eventIndex : ℕ) (reason : Symbol) : Fn D ℕ := do
  requireInitialized
  requireAuth requester
  let event ← getEventByOrder eventIndex
  rejectIf (event.category = operationalCategory) .operationalEventNotErasable
  let erased ← isEventErased eventIndex
  rejectIf erased .eventAlreadyErased
  let requestId := (← get .erasureRequestCount ()).getD 0
  let now := (← getEnv).timestamp
  set .erasureRequest requestId ⟨requester, eventIndex, reason, now, .pending, none, 0, []⟩
  let count ← addChecked 32 requestId 1
  set .erasureRequestCount () count
  publish ["compliance", "erasure_requested"]
    [.addr requester, .nat eventIndex, .nat requestId, .sym reason]
  return requestId

/-- Empties the metadata of an event and records the digest of what it was.  The update asks the caller for
    another authorisation. -/
def eraseMetadata (H : Host D) (caller : Address) (eventIndex : ℕ) (event : Event D)
    (reason : Symbol) : Fn D Unit := do
  let _ ← updateEvent H caller eventIndex []
  let now := (← getEnv).timestamp
  set .erasureRecord eventIndex ⟨true, now, caller, H.sha256 event.metadata, reason⟩

/-- `process_erasure_request` -/
def processErasureRequest (H : Host D) (caller : Address) (requestId : ℕ) (approve : Bool)
    (justification : Bytes) : Fn D Unit := do
  requireCaller caller
  let request ← unwrapOr (← get .erasureRequest requestId) .erasureRequestNotFound
  rejectIf (request.status ≠ .pending) .erasureRequestAlreadyDecided
  let eventIndex := request.eventIndex
  doIf approve do
    let event ← getEventByOrder eventIndex
    rejectIf (event.category = operationalCategory) .operationalEventNotErasable
    let held ← isUnderLegalHold eventIndex
    rejectIf held .eventOnLegalHold
    let exempt ← hasActiveComplianceException eventIndex
    rejectIf exempt .complianceExceptionActive
    eraseMetadata H caller eventIndex event request.reason
  let now := (← getEnv).timestamp
  set .erasureRequest requestId { request with
    status := if approve then .fulfilled else .denied
    decidedBy := some caller
    decidedAt := now
    justification }
  publish ["compliance", "erasure_decided"]
    [.addr caller, .nat requestId, .nat eventIndex, .bool approve]

/-- One round of the loop of `run_retention_sweep`. -/
def sweepEvent (H : Host D) (caller : Address) (erasedCount i : ℕ) : Fn D ℕ := do
  let event ← getEventByOrder i
  let erased ← isEventErased i
  let retentionDays ← retentionDaysFor event.category
  let held ← isUnderLegalHold i
  let exempt ← hasActiveComplianceException i
  let now := (← getEnv).timestamp
  if event.category = operationalCategory ∨ erased ∨ retentionDays = 0 ∨
      now - event.timestamp ≤ min (retentionDays * 86400) (2 ^ 64 - 1) ∨ held ∨ exempt then
    return erasedCount
  else do
    eraseMetadata H caller i event "retention_expired"
    return erasedCount + 1

/-- `run_retention_sweep` -/
def runRetentionSweep (H : Host D) (caller : Address) (startIndex batchSize : ℕ) : Fn D ℕ := do
  requireCaller caller
  let total ← totalEvents
  let stop := if min (startIndex + batchSize) (2 ^ 32 - 1) < total then startIndex + batchSize else total
  let erasedCount ← (List.range' startIndex (stop - startIndex)).foldlM (sweepEvent H caller) 0
  publish ["compliance", "retention_sweep"]
    [.addr caller, .nat startIndex, .nat stop, .nat erasedCount]
  return erasedCount

/-! ## The operational log -/

/-- `is_addr_ops_recorder` -/
def isAddrOpsRecorder (addr : Address) : Fn D Bool := do
  let isOwner ← isAddrOwner addr
  let recorders ← get .opsAuditRecorders ()
  return isOwner ∨ addr ∈ recorders.getD []

/-- `add_ops_recorder` -/
def addOpsRecorder (caller recorder : Address) : Fn D Unit := do
  requireCaller caller
  let recorders := (← get .opsAuditRecorders ()).getD []
  doIf (recorder ∉ recorders) do
    set .opsAuditRecorders () (recorders ++ [recorder])
    publish ["ops_recorder_added"] [.addr recorder, .addr caller]

/-- `remove_ops_recorder` -/
def removeOpsRecorder (caller recorder : Address) : Fn D Unit := do
  requireCaller caller
  let recorders := (← get .opsAuditRecorders ()).getD []
  set .opsAuditRecorders () (recorders.filter (· ≠ recorder))
  publish ["ops_recorder_removed"] [.addr recorder, .addr caller]

/-- `log_operational_action` -/
def logOperationalAction (H : Host D) (caller : Address) (actionType : Symbol) (details : Bytes) :
    Fn D D := do
  requireInitialized
  let allowed ← isAddrOpsRecorder caller
  rejectIf (¬allowed) .unauthorizedOpsRecorder
  logEventWithHierarchy H caller actionType details (some operationalCategory) none true

/-! ## Reading and writing -/

set_option synthInstance.maxSize 1000000000

section
variable {W : List DataKey}

instance (category : Symbol) : Reads (retentionDaysFor category : Fn D _) := by
  unfold retentionDaysFor; infer_instance
instance (eventIndex : ℕ) : Reads (isUnderLegalHold eventIndex : Fn D _) := by
  unfold isUnderLegalHold; infer_instance
instance (eventIndex : ℕ) : Reads (hasActiveComplianceException eventIndex : Fn D _) := by
  unfold hasActiveComplianceException; infer_instance
instance (order : ℕ) : Reads (getEventByOrder order : Fn D _) := by
  unfold getEventByOrder; infer_instance
instance (eventIndex : ℕ) : Reads (isEventErased eventIndex : Fn D _) := by
  unfold isEventErased; infer_instance
instance (addr : Address) : Reads (isAddrOpsRecorder addr : Fn D _) := by
  unfold isAddrOpsRecorder; infer_instance
instance (H : Host D) (caller : Address) (eventIndex : ℕ) (event : Event D) (reason : Symbol)
    [Sub rewriteWrites W] [In .erasureRecord W] :
    Writes (layout D) W (eraseMetadata H caller eventIndex event reason) := by
  unfold eraseMetadata; infer_instance
instance (H : Host D) (caller : Address) (erasedCount i : ℕ) [Sub rewriteWrites W]
    [In .erasureRecord W] : Writes (layout D) W (sweepEvent H caller erasedCount i) := by
  unfold sweepEvent; infer_instance

end

end AuditLedger
