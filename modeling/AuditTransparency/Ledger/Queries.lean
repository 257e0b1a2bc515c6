/-
  AuditLedger — reading the log.

  * the integrity checks walk the hash chain and compare;
  * the per-type and per-submitter queries read the packed indices by offset;
  * the statistics count over the whole log.
-/
import AuditTransparency.Ledger.Logging

namespace AuditLedger

open Soroban
open Soroban.Call hiding hasPers publish

variable {D : Type} [DecidableEq D]

/-! ## Integrity -/

/-- One round of the loop of `verify_range`; `none` once it has returned `false`. -/
def verifyEvent (H : Host D) (expectedPrev : Option D) (i : ℕ) : Fn D (Option D) :=
  onSome expectedPrev
    (fun expected => do
      let id ← get .eventOrder i
      onSome id
        (fun id => do
          let evt ← get .eventData id
          return evt.bind fun e =>
            if e.prevHash = expected ∧
                e.eventHash = computeEventHash H id e.prevHash i e.timestamp then
              some e.eventHash
            else
              none)
        (pure none))
    (pure none)

/-- The hash the first event of the range must link to. -/
def verifySeed (H : Host D) (first : ℕ) : Fn D (Option D) :=
  if first = 0 then
    pure (some H.zeros)
  else do
    let prevId ← get .eventOrder (first - 1)
    onSome prevId
      (fun prevId => do
        let prevEvt ← get .eventData prevId
        return prevEvt.map (·.eventHash))
      (pure none)

/-- `verify_range` -/
def verifyRange (H : Host D) (first last : ℕ) : Fn D Bool := do
  let seed ← verifySeed H first
  let tail ← (List.range' first (last - first)).foldlM (verifyEvent H) seed
  return tail.isSome

/-- `verify_integrity` -/
def verifyIntegrity (H : Host D) : Fn D Bool := do
  requireInitialized
  let total ← totalEvents
  verifyRange H 0 total

/-- `verify_integrity_range` -/
def verifyIntegrityRange (H : Host D) (first last : ℕ) : Fn D Bool := do
  requireInitialized
  verifyRange H first last

/-! ## Indices -/

/-- The `k`-th word of a packed index. -/
def wordAt (packed : Option Bytes) (k : ℕ) : Fn D ℕ := do
  let packed ← unwrapOr packed .eventTypeIndexOutOfBounds
  let byteOffset ← mulChecked 32 k 4
  let stop ← addChecked 32 byteOffset 4
  rejectIf (stop > packed.length) .eventTypeIndexOutOfBounds
  let b0 ← unwrap packed[byteOffset]?
  let b1 ← unwrap packed[byteOffset + 1]?
  let b2 ← unwrap packed[byteOffset + 2]?
  let b3 ← unwrap packed[byteOffset + 3]?
  return word b0 b1 b2 b3

/-- `get_type_index` -/
def getTypeIndex (eventType : Symbol) (typeIndex : ℕ) : Fn D ℕ := do
  wordAt (← get .eventTypeIndices eventType) typeIndex

/-- `get_submitter_index` -/
def getSubmitterIndex (submitter : Address) (submitterIndex : ℕ) : Fn D ℕ := do
  wordAt (← get .submitterEventIndices submitter) submitterIndex

/-- `event_count` -/
def eventCount (eventType : Symbol) : Fn D ℕ := do
  requireInitialized
  let lowCost ← effectiveLowCostMode
  rejectIf lowCost .capNotSet
  eventTypeCount eventType

/-- `get_event_type_count`: the cached count. -/
def getEventTypeCount (eventType : Symbol) : Fn D ℕ := do
  return (← get .eventTypeCount eventType).getD 0

/-- `get_event_by_type` -/
def getEventByType (eventType : Symbol) (typeIndex : ℕ) : Fn D (Event D) := do
  requireInitialized
  let lowCost ← effectiveLowCostMode
  rejectIf lowCost .eventTypeIndexOutOfBounds
  let count ← eventTypeCount eventType
  rejectIf (count = 0) .noEventsForType
  rejectIf (typeIndex ≥ count) .eventTypeIndexOutOfBounds
  let globalOrder ← getTypeIndex eventType typeIndex
  let eventId ← unwrapOr (← get .eventOrder globalOrder) .eventTypeIndexOutOfBounds
  unwrapOr (← get .eventData eventId) .eventDoesNotExist

/-- `submitter_event_count` -/
def submitterEventCount (submitter : Address) : Fn D ℕ := do
  requireInitialized
  submitterCount submitter

/-- `get_event_by_submitter` -/
def getEventBySubmitter (submitter : Address) (submitterIndex : ℕ) : Fn D (Event D) := do
  requireInitialized
  let count ← submitterCount submitter
  rejectIf (count = 0) .noEventsForType
  rejectIf (submitterIndex ≥ count) .eventTypeIndexOutOfBounds
  let globalOrder ← getSubmitterIndex submitter submitterIndex
  let eventId ← unwrapOr (← get .eventOrder globalOrder) .eventDoesNotExist
  unwrapOr (← get .eventData eventId) .eventDoesNotExist

/-! ## Statistics -/

structure ContractStatistics where
  totalEvents : ℕ
  eventsByType : List (Symbol × ℕ)
  eventsLastHour : ℕ
  eventsLastDay : ℕ
  eventsLastWeek : ℕ
  topSubmitters : List (Address × ℕ)
  deriving DecidableEq

/-- `increment_type_count` -/
def incrementTypeCount (counts : List (Symbol × ℕ)) (eventType : Symbol) : List (Symbol × ℕ) :=
  (incrementCount counts eventType).1

/-- `increment_submitter_count` -/
def incrementSubmitterCount (counts : List (Address × ℕ)) (submitter : Address) :
    List (Address × ℕ) := (incrementCount counts submitter).1

/-- One round of the loop of `collect_statistics`. -/
def countEvent (now : ℕ) (stats : ContractStatistics) (i : ℕ) : Fn D ContractStatistics := do
  let eventId ← unwrap (← get .eventOrder i)
  let evt ← unwrap (← get .eventData eventId)
  let within (seconds : ℕ) : ℕ := if evt.timestamp ≤ now ∧ now - evt.timestamp ≤ seconds then 1 else 0
  return { stats with
    eventsByType := incrementTypeCount stats.eventsByType evt.eventType
    topSubmitters := incrementSubmitterCount stats.topSubmitters evt.submitter
    eventsLastHour := stats.eventsLastHour + within 3600
    eventsLastDay := stats.eventsLastDay + within 86400
    eventsLastWeek := stats.eventsLastWeek + within 604800 }

/-- `collect_statistics` -/
def collectStatistics : Fn D ContractStatistics := do
  let cfg ← get .config ()
  let total := (cfg.map (·.totalEvents)).getD 0
  let now := (← getEnv).timestamp
  (List.range total).foldlM (countEvent now) ⟨total, [], 0, 0, 0, []⟩

/-- `get_statistics` -/
def getStatistics (caller : Address) : Fn D ContractStatistics := do
  requireInitialized
  requireAuth caller
  requireRoleMin caller .auditor
  collectStatistics

/-! ## Flags -/

/-- `is_paused` -/
def isPaused : Fn D Bool := do
  return (← get .paused ()).getD false

end AuditLedger
