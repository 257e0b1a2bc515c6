/-
  AuditLedger — rewriting a logged event.

  `update_event` gives an event new metadata and `rollback_event` gives it back
  the content of an earlier version.  Both change the id of the event, append to
  its version history, and re-link every later event to its predecessor.
-/
import AuditTransparency.Ledger.Logging

namespace AuditLedger

open Soroban
open Soroban.Call hiding hasPers publish

variable {D : Type} [DecidableEq D]

/-- What both functions store for the rewritten event. -/
def replaceEvent (index : ℕ) (newId : D) (evt : Event D) : Fn D Unit := do
  set .eventData newId evt
  set .eventOrder index newId
  set .eventHeaderKey newId ⟨evt.index, evt.timestamp, evt.eventType, evt.submitter⟩
  set .eventMeta newId evt
  set .eventMetadata newId evt.metadata

/-- One round of the re-linking loop: the event at `i` is linked to `prevHash`. -/
def relinkEvent (H : Host D) (prevHash : D) (i : ℕ) : Fn D D := do
  let eventId ← unwrap (← get .eventOrder i)
  let later ← unwrap (← get .eventData eventId)
  let later := { later with
    prevHash
    eventHash := computeEventHash H eventId prevHash i later.timestamp }
  set .eventData eventId later
  set .eventMeta eventId later
  return later.eventHash

/-- `for i in index + 1..total` of both functions. -/
def relinkLater (H : Host D) (index total : ℕ) (prevHash : D) : Fn D D :=
  (List.range' (index + 1) (total - (index + 1))).foldlM (relinkEvent H) prevHash

/-- One round of the loop of `update_event` over the children of the event. -/
def reparentEvent (currentId newId : D) (i : ℕ) : Fn D Unit := do
  let eventId ← unwrap (← get .eventOrder i)
  let later ← unwrap (← get .eventData eventId)
  doIf (later.parentEventId = some currentId) do
    set .eventData eventId { later with parentEventId := some newId }
    set .eventMeta eventId { later with parentEventId := some newId }

/-- The writes both functions make in the log: the new history of the event, the
    rewritten event, and the links of the later ones. -/
def reviseEvent (H : Host D) (index total : ℕ) (versions : List (EventVersion D)) (newId : D)
    (updated : Event D) : Fn D Unit := do
  set .eventVersions index versions
  replaceEvent index newId updated
  let _ ← relinkLater H index total updated.eventHash

/-- The first version of an event is the event as it was logged. -/
def originalVersion (event : Event D) : EventVersion D := ⟨0, event, event.timestamp, event.submitter⟩

/-- `update_event` -/
def updateEvent (H : Host D) (caller : Address) (index : ℕ) (newMetadata : Bytes) : Fn D D := do
  requireAuth caller
  requireOwnerOrMultisig caller
  let total ← totalEvents
  rejectIf (index ≥ total) .eventDoesNotExist
  let currentId ← unwrap (← get .eventOrder index)
  let current ← unwrap (← get .eventData currentId)
  checkMetadata current.eventType newMetadata
  let env ← getEnv
  let newId := computeEventId H env current.submitter current.eventType newMetadata
    current.timestamp index
  if newId = currentId then
    return currentId
  else do
    let versions := (← get .eventVersions index).getD []
    let versions := if versions = [] then [originalVersion current] else versions
    let prev ← prevLink H index
    let updatedHash := computeEventHash H newId prev.1 index current.timestamp
    let version ← currentContractVersion
    let updated : Event D := { current with
      index
      metadata := newMetadata
      version
      eventHash := updatedHash
      prevHash := prev.1 }
    reviseEvent H index total (versions ++ [⟨versions.length, updated, env.timestamp, caller⟩])
      newId updated
    (List.range total).foldlM (fun _ i => reparentEvent currentId newId i) ()
    publish ["event_updated"]
      [.nat index, .id currentId, .id newId, .addr caller, .nat env.timestamp]
    return newId

/-- `get_event_history` -/
def getEventHistory (index : ℕ) : Fn D (List (EventVersion D)) := do
  let total ← totalEvents
  if index ≥ total then
    return []
  else do
    let versions ← get .eventVersions index
    onSome versions pure do
      let eventId ← unwrap (← get .eventOrder index)
      let event ← unwrap (← get .eventData eventId)
      return [originalVersion event]

/-- `rollback_event` -/
def rollbackEvent (H : Host D) (caller : Address) (index targetVersion : ℕ) : Fn D D := do
  requireAuth caller
  requireOwnerOrMultisig caller
  let total ← totalEvents
  rejectIf (index ≥ total) .eventDoesNotExist
  let history ← getEventHistory index
  rejectIf (targetVersion ≥ history.length) .invalidVersion
  let target ← unwrap history[targetVersion]?
  let restored := target.data
  let env ← getEnv
  let newId := computeEventId H env restored.submitter restored.eventType restored.metadata
    restored.timestamp index
  let currentId ← unwrap (← get .eventOrder index)
  if newId = currentId then
    return newId
  else do
    let prev ← prevLink H index
    let newHash := computeEventHash H newId prev.1 index restored.timestamp
    let version ← currentContractVersion
    let updated : Event D := { restored with
      version
      eventHash := newHash
      prevHash := prev.1 }
    reviseEvent H index total (history ++ [⟨history.length, updated, env.timestamp, caller⟩])
      newId updated
    publish ["versioning", "event_rolled_back"]
      [.nat index, .nat targetVersion, .addr caller, .nat env.timestamp]
    return newId

/-! ## Reading and writing -/

set_option synthInstance.maxSize 1000000000

section
variable {W : List DataKey}

instance (index : ℕ) : Reads (getEventHistory index : Fn D _) := by
  unfold getEventHistory; infer_instance
instance (index : ℕ) (newId : D) (evt : Event D)
    [In .eventData W] [In .eventOrder W] [In .eventHeaderKey W] [In .eventMeta W] [In .eventMetadata W] :
    Writes (layout D) W (replaceEvent index newId evt) := by
  unfold replaceEvent; infer_instance
instance (H : Host D) (prevHash : D) (i : ℕ) [In .eventData W] [In .eventMeta W] :
    Writes (layout D) W (relinkEvent H prevHash i) := by
  unfold relinkEvent; infer_instance
instance (H : Host D) (index total : ℕ) (prevHash : D) [In .eventData W] [In .eventMeta W] :
    Writes (layout D) W (relinkLater H index total prevHash) := by
  unfold relinkLater; infer_instance
instance (currentId newId : D) (i : ℕ) [In .eventData W] [In .eventMeta W] :
    Writes (layout D) W (reparentEvent currentId newId i) := by
  unfold reparentEvent; infer_instance

instance (H : Host D) (index total : ℕ) (versions : List (EventVersion D)) (newId : D)
    (updated : Event D) [In .eventVersions W] [In .eventData W] [In .eventOrder W]
    [In .eventHeaderKey W] [In .eventMeta W] [In .eventMetadata W] :
    Writes (layout D) W (reviseEvent H index total versions newId updated) := by
  unfold reviseEvent; infer_instance

/-- What `update_event` and `rollback_event` write. -/
abbrev rewriteWrites : List DataKey :=
  [.eventData, .eventOrder, .eventHeaderKey, .eventMeta, .eventMetadata, .eventVersions]

instance [Sub rewriteWrites W] (H : Host D) (caller : Address) (index : ℕ) (newMetadata : Bytes) :
    Writes (layout D) W (updateEvent H caller index newMetadata) :=
  Writes.mono (V := rewriteWrites) (by unfold updateEvent; infer_instance)

instance [Sub rewriteWrites W] (H : Host D) (caller : Address) (index targetVersion : ℕ) :
    Writes (layout D) W (rollbackEvent H caller index targetVersion) :=
  Writes.mono (V := rewriteWrites) (by unfold rollbackEvent; infer_instance)

end

end AuditLedger
