/-
  AuditLedger — the write paths.

  An event enters the log through `log_event_with_hierarchy`, one at a time, or
  through `log_events`, in a batch.  The two share the record they write and
  the packed indices (`placeEvent`, `pushTypeIndex`, `pushSubmitterIndex`), and
  differ in the checks, in the counters they keep and in what they remember.
  The entry points with a nonce, a signature or a custom key call the first.
-/
import AuditTransparency.Ledger.Access
import AuditTransparency.Soroban.Tally

namespace AuditLedger

open Soroban
open Soroban.Call hiding hasPers publish

variable {D : Type} [DecidableEq D]

/-! ## Initialisation -/

/-- `initialize` -/
def initializeLedger (owners : List Address) (globalMaxLogs maxMetadataBytes : ℕ) : Fn D Unit := do
  let owner ← get .owner ()
  rejectIf owner.isSome .alreadyInitialized
  rejectIf (owners = []) .newOwnerIsZero
  let primary ← unwrap owners.head?
  requireAuth primary
  set .owner () primary
  set .owners () owners
  set .config () ⟨globalMaxLogs, 0⟩
  set .globalMaxLogs () globalMaxLogs
  set .globalMetadataMaxSize () maxMetadataBytes
  set .runtimeState () {
    globalMaxLogs
    totalEvents := 0
    paused := false
    allowlistMode := false
    lowCostMode := false
    emissionMode := 1
    globalMetadataMaxSize := maxMetadataBytes }
  set .totalEvents () 0
  set .paused () false
  set .contractVersion () 1
  set .defaultNonceWindowSize () 1000
  set .defaultNonceMaxValue () (2 ^ 32 - 1)
  set .rbacEnabled () false
  owners.foldlM (fun _ o => set .role o .admin) ()

/-! ## The record of an event -/

/-- The event both write paths build for position `index`, with its id. -/
def buildEvent (H : Host D) (submitter : Address) (eventType : Symbol) (metadata : Bytes)
    (category : Symbol) (subEventType : Option Symbol) (index : ℕ) (prevHash : D) :
    Fn D (D × Event D) := do
  let env ← getEnv
  let timestamp := env.timestamp
  let eventId := computeEventId H env submitter eventType metadata timestamp index
  let eventHash := computeEventHash H eventId prevHash index timestamp
  let version ← currentContractVersion
  return (eventId, {
    index, timestamp, eventType, category, submitter, metadata, subEventType, version, eventHash
    prevHash
    parentEventId := none })

/-- What both write paths store for a new event. -/
def placeEvent (eventId : D) (evt : Event D) : Fn D Unit := do
  set .eventData eventId evt
  set .eventOrder evt.index eventId
  set .eventHeaderKey eventId ⟨evt.index, evt.timestamp, evt.eventType, evt.submitter⟩
  set .eventMetadata eventId evt.metadata

/-- `event_hash` and `timestamp` of the event before position `index`. -/
def prevLink (H : Host D) (index : ℕ) : Fn D (D × ℕ) :=
  if index = 0 then
    pure (H.zeros, 0)
  else do
    let prevId ← unwrap (← get .eventOrder (index - 1))
    let prevEvt ← unwrap (← get .eventData prevId)
    return (prevEvt.eventHash, prevEvt.timestamp)

/-- `push_type_index`.  The length of a `Bytes` value is a `u32`. -/
def pushTypeIndex (eventType : Symbol) (globalIndex : ℕ) : Fn D Unit := do
  let packed := (← get .eventTypeIndices eventType).getD []
  let _ ← addChecked 32 packed.length 4
  set .eventTypeIndices eventType (packed ++ u32ToBytes globalIndex)

/-- `push_submitter_index` -/
def pushSubmitterIndex (submitter : Address) (globalIndex : ℕ) : Fn D Unit := do
  let packed := (← get .submitterEventIndices submitter).getD []
  let _ ← addChecked 32 packed.length 4
  set .submitterEventIndices submitter (packed ++ u32ToBytes globalIndex)
  let count ← submitterCount submitter
  let count ← addChecked 32 count 1
  set .submitterEventCount submitter count

/-- The notification of a new event, unless emission is off (mode 3). -/
def emitLogged (submitter : Address) (eventType : Symbol) (index : ℕ) : Fn D Unit := do
  let emissionMode ← effectiveEventEmissionMode
  doIf (emissionMode ≠ 3) do
    publish ["audit", "log_event"] [.addr submitter, .sym eventType, .nat index]

/-- Writes the new total into the packed state, when there is one. -/
def syncTotalEvents (total : ℕ) : Fn D Unit := do
  let rs ← get .runtimeState ()
  ifSome rs fun rs => set .runtimeState () { rs with totalEvents := total }

/-! ## A single event -/

/-- The reentrancy guard is set, and must not have been. -/
def enterGuard : Fn D Unit := do
  let guard ← getTemp .logEventReentrancyGuard ()
  rejectIf guard.isSome .reentrancyDetected
  setTemp .logEventReentrancyGuard () true

/-- The packed state, or what a contract without one has in its place. -/
def readRuntimeState : Fn D RuntimeState := do
  let rs ← get .runtimeState ()
  onSome rs pure do
    let cfg ← unwrap (← get .config ())
    return {
      globalMaxLogs := cfg.globalMaxLogs
      totalEvents := cfg.totalEvents
      paused := (← get .paused ()).getD false
      allowlistMode := (← get .allowlistMode ()).getD false
      lowCostMode := (← get .lowCostMode ()).getD false
      emissionMode := (← get .eventEmissionConfig ()).getD 1
      globalMetadataMaxSize := (← get .globalMetadataMaxSize ()).getD 0 }

/-- The rate limit of the single path: the count of the current timestamp is
    checked and written back. -/
def chargeRate (submitter : Address) : Fn D Unit := do
  let limit ← get .submitterRateLimit submitter
  ifSome limit fun limit => do
    let now := (← getEnv).timestamp
    let state := (← get .submitterRateState submitter).getD (0, 0)
    if now = state.1 then do
      rejectIf (state.2 ≥ limit) .rateLimitExceeded
      set .submitterRateState submitter (now, state.2 + 1)
    else do
      rejectIf (limit = 0) .rateLimitExceeded
      set .submitterRateState submitter (now, 1)

/-- The cap of the type, when one is set, against the length of its index; the
    count that was read is returned. -/
def checkCap (eventType : Symbol) : Fn D (Option ℕ) := do
  let cap ← get .eventCapConfig eventType
  onSome cap.join
    (fun cap => do
      let count ← eventTypeCount eventType
      rejectIf (count ≥ cap) .eventTypeMaxLogsReached
      return some count)
    (pure none)

/-- The position the dedup map of the policy records for this content. -/
def findDuplicate (H : Host D) (policy : DedupPolicy) (eventType : Symbol) (submitter : Address)
    (metadata : Bytes) : Fn D (Option ℕ) := do
  let env ← getEnv
  let contentHash := computeContentHash H env eventType submitter metadata
  match policy with
  | .none => return none
  | .contentHash => get .eventContentHash contentHash
  | .contentHashWithTimestamp => do
    let entry ← get .eventContentHashWithTs contentHash
    return entry.bind fun e => if e.2 = env.timestamp then some e.1 else none
  | .custom => do
    let key ← pendingCustomKey
    onSome key (fun key => get .eventCustomKey key) (pure none)

/-- `force` bypasses the search. -/
def searchDuplicate (H : Host D) (force : Bool) (policy : DedupPolicy) (eventType : Symbol)
    (submitter : Address) (metadata : Bytes) : Fn D (Option ℕ) :=
  if force then pure none else findDuplicate H policy eventType submitter metadata

/-- Records the new event in the dedup map of the policy. -/
def recordDedup (H : Host D) (policy : DedupPolicy) (eventType : Symbol) (submitter : Address)
    (metadata : Bytes) (index timestamp : ℕ) : Fn D Unit := do
  let env ← getEnv
  let contentHash := computeContentHash H env eventType submitter metadata
  match policy with
  | .none => pure ()
  | .contentHash => set .eventContentHash contentHash index
  | .contentHashWithTimestamp => set .eventContentHashWithTs contentHash (index, timestamp)
  | .custom => do
    let key ← pendingCustomKey
    ifSome key fun key => set .eventCustomKey key index

/-- The packed indices and the cached count.  The count is the one `checkCap`
    read before, or is read again after the index has grown. -/
def indexSingle (eventType : Symbol) (submitter : Address) (index : ℕ) (typeCount : Option ℕ) :
    Fn D Unit := do
  pushTypeIndex eventType index
  pushSubmitterIndex submitter index
  let count ← onSome typeCount pure (eventTypeCount eventType)
  set .eventTypeCount eventType (count + 1)

/-- The timestamp must not precede the last event, nor follow it by more than
    the drift allowed. -/
def checkDrift (index timestamp prevTimestamp : ℕ) : Fn D Unit :=
  doIf (index > 0) do
    rejectIf (timestamp < prevTimestamp) .timestampOutOfRange
    let bound ← addChecked 64 prevTimestamp maxTimestampDriftSeconds
    rejectIf (timestamp > bound) .timestampOutOfRange

/-- The part of `log_event_with_hierarchy` after the duplicate search. -/
def appendSingle (H : Host D) (submitter : Address) (eventType : Symbol) (metadata : Bytes)
    (category subEventType : Option Symbol) (cfg : Config) (policy : DedupPolicy)
    (typeCount : Option ℕ) : Fn D D := do
  let index := cfg.totalEvents
  let timestamp := (← getEnv).timestamp
  let prev ← prevLink H index
  checkDrift index timestamp prev.2
  let new ← buildEvent H submitter eventType metadata (category.getD "general") subEventType index
    prev.1
  placeEvent new.1 new.2
  let ttl ← get .eventTtl ()
  doIf (ttl.getD 0 > 0) do
    setPers .eventData new.1 new.2
  recordDedup H policy eventType submitter metadata index timestamp
  removeTemp .pendingCustomDedupKey ()
  let lowCost ← effectiveLowCostMode
  doIf (¬lowCost) do
    indexSingle eventType submitter index typeCount
  let total ← addChecked 32 cfg.totalEvents 1
  set .config () { cfg with totalEvents := total }
  syncTotalEvents total
  emitLogged submitter eventType index
  removeTemp .logEventReentrancyGuard ()
  return new.1

/-- `log_event_with_hierarchy`.  A duplicate returns before the guard is removed. -/
def logEventWithHierarchy (H : Host D) (submitter : Address) (eventType : Symbol) (metadata : Bytes)
    (category subEventType : Option Symbol) (force : Bool) : Fn D D := do
  requireInitialized
  requireAuth submitter
  requireRoleMin submitter .submitter
  enterGuard
  validateEventType eventType
  checkAdmission submitter
  let rs ← readRuntimeState
  let cfg := (← get .config ()).getD ⟨rs.globalMaxLogs, rs.totalEvents⟩
  chargeRate submitter
  checkMetadata eventType metadata
  rejectIf (rs.totalEvents ≥ rs.globalMaxLogs) .globalMaxLogsReached
  let typeCount ← checkCap eventType
  let policy ← effectiveDedupPolicy eventType
  let existing ← searchDuplicate H force policy eventType submitter metadata
  onSome existing
    (fun existingIndex => do unwrap (← get .eventOrder existingIndex))
    (appendSingle H submitter eventType metadata category subEventType cfg policy typeCount)

/-- `log_event` -/
def logEvent (H : Host D) (submitter : Address) (eventType : Symbol) (metadata : Bytes)
    (category subEventType : Option Symbol) (force : Bool) : Fn D D :=
  logEventWithHierarchy H submitter eventType metadata category subEventType force

/-! ## A batch -/

/-- `increment_address_count` -/
def incrementAddressCount (counts : List (Address × ℕ)) (addr : Address) :
    List (Address × ℕ) × ℕ := incrementCount counts addr

/-- `increment_symbol_count` -/
def incrementSymbolCount (counts : List (Symbol × ℕ)) (sym : Symbol) :
    List (Symbol × ℕ) × ℕ := incrementCount counts sym

/-- What `log_events` accumulates while it checks a batch. -/
structure BatchCounts where
  submitterBatchCounts : List (Address × ℕ)
  typeBatchCounts : List (Symbol × ℕ)
  authorizedSubmitters : List Address

/-- The packed state as `log_events` reads it. -/
def readRuntimeStateBatch : Fn D RuntimeState := do
  let rs ← get .runtimeState ()
  onSome rs pure do
    let cfg ← unwrap (← get .config ())
    return {
      globalMaxLogs := cfg.globalMaxLogs
      totalEvents := cfg.totalEvents
      paused := (← get .paused ()).getD false
      allowlistMode := false
      lowCostMode := (← get .lowCostMode ()).getD false
      emissionMode := (← get .eventEmissionConfig ()).getD 1
      globalMetadataMaxSize := 0 }

/-- The rate limit of the batch path: the stored count plus the events of the
    submitter in this batch so far.  Nothing is written back. -/
def checkBatchRate (counts : List (Address × ℕ)) (submitter : Address) :
    Fn D (List (Address × ℕ)) := do
  let limit ← get .submitterRateLimit submitter
  onSome limit
    (fun limit => do
      let now := (← getEnv).timestamp
      let state := (← get .submitterRateState submitter).getD (0, 0)
      let r := incrementAddressCount counts submitter
      (if now = state.1 then do
        let n ← addChecked 32 state.2 r.2
        rejectIf (n > limit) .rateLimitExceeded
      else
        rejectIf (r.2 > limit) .rateLimitExceeded)
      return r.1)
    (pure counts)

/-- The cap of the type against the length of its index plus the events of the
    type in this batch so far. -/
def checkBatchCap (counts : List (Symbol × ℕ)) (eventType : Symbol) : Fn D (List (Symbol × ℕ)) := do
  let cap ← get .eventCapConfig eventType
  onSome cap.join
    (fun cap => do
      let current ← eventTypeCount eventType
      let r := incrementSymbolCount counts eventType
      let n ← addChecked 32 current r.2
      rejectIf (n > cap) .eventTypeMaxLogsReached
      return r.1)
    (pure counts)

/-- One round of the checking loop of `log_events`. -/
def checkBatchItem (acc : BatchCounts) (item : Address × Symbol × Bytes) : Fn D BatchCounts := do
  doIf (item.1 ∉ acc.authorizedSubmitters) do
    requireAuth item.1
    requireRoleMin item.1 .submitter
  checkMetadata item.2.1 item.2.2
  let submitters ← checkBatchRate acc.submitterBatchCounts item.1
  let types ← checkBatchCap acc.typeBatchCounts item.2.1
  return {
    submitterBatchCounts := submitters
    typeBatchCounts := types
    authorizedSubmitters :=
      if item.1 ∈ acc.authorizedSubmitters then acc.authorizedSubmitters
      else acc.authorizedSubmitters ++ [item.1] }

/-- The packed indices and the cached count, incremented in place. -/
def indexBatch (eventType : Symbol) (submitter : Address) (index : ℕ) : Fn D Unit := do
  pushTypeIndex eventType index
  pushSubmitterIndex submitter index
  let count := (← get .eventTypeCount eventType).getD 0
  let count ← addChecked 32 count 1
  set .eventTypeCount eventType count

/-- What the storing loop of `log_events` carries. -/
structure BatchTail (D : Type) where
  currentTotal : ℕ
  prevHash : D
  resultIndices : List ℕ

/-- One round of the storing loop of `log_events`. -/
def appendBatchItem (H : Host D) (acc : BatchTail D) (item : Address × Symbol × Bytes) :
    Fn D (BatchTail D) := do
  let index := acc.currentTotal
  let new ← buildEvent H item.1 item.2.1 item.2.2 "general" none index acc.prevHash
  placeEvent new.1 new.2
  let lowCost ← effectiveLowCostMode
  doIf (¬lowCost) do
    indexBatch item.2.1 item.1 index
  emitLogged item.1 item.2.1 index
  return ⟨index + 1, new.2.eventHash, acc.resultIndices ++ [index]⟩

/-- `log_events` -/
def logEvents (H : Host D) (events : List (Address × Symbol × Bytes)) : Fn D (List ℕ) := do
  requireInitialized
  let rs ← readRuntimeStateBatch
  rejectIf rs.paused .contractPaused
  rejectIf (rs.totalEvents + events.length ≥ 2 ^ 32 ∨
    rs.totalEvents + events.length > rs.globalMaxLogs) .globalMaxLogsReached
  let _ ← events.foldlM checkBatchItem ⟨[], [], []⟩
  let prev ← prevLink H rs.totalEvents
  let tail ← events.foldlM (appendBatchItem H) ⟨rs.totalEvents, prev.1, []⟩
  set .config () ⟨rs.globalMaxLogs, tail.currentTotal⟩
  syncTotalEvents tail.currentTotal
  return tail.resultIndices

/-! ## Entry points over the single path -/

/-- The stored nonce state, with the defaults of a submitter without one. -/
def submitterNonceState (H : Host D) (submitter : Address) : Fn D NonceState := do
  let state ← get .submitterNonce submitter
  onSome state pure do
    return ⟨0, ← defaultNonceWindowSize, ← defaultNonceMaxValue H⟩

/-- `log_event_with_nonce`: a `SubmitterNonceConfig` replaces the whole state that
    is checked, and the `SubmitterNonce` record is the one written. -/
def logEventWithNonce (H : Host D) (submitter : Address) (eventType : Symbol) (metadata : Bytes)
    (nonce : ℕ) : Fn D D := do
  let state ← submitterNonceState H submitter
  let config ← get .submitterNonceConfig submitter
  let effective := config.getD state
  rejectIf (nonce > effective.maxNonce) .nonceExhausted
  rejectIf (nonce = 0 ∨ nonce ≤ effective.lastNonce) .nonceTooLow
  rejectIf ((effective.windowSize > 0 ∧ nonce < effective.lastNonce) ∨
    (effective.windowSize > 0 ∧ nonce - effective.lastNonce > effective.windowSize))
    .nonceWindowExceeded
  let eventId ← logEventWithHierarchy H submitter eventType metadata none none false
  set .submitterNonce submitter ⟨nonce, effective.windowSize, effective.maxNonce⟩
  return eventId

/-- `log_event_signed` -/
def logEventSigned (H : Host D) (submitter : Address) (eventType : Symbol) (metadata : Bytes)
    (signaturePayload : Bytes) : Fn D D := do
  rejectIf (signaturePayload.length ≠ 96) .invalidSignature
  let eventId ← logEventWithHierarchy H submitter eventType metadata none none false
  set .eventSignature eventId signaturePayload
  return eventId

/-- `log_event_with_custom_key` -/
def logEventWithCustomKey (H : Host D) (submitter : Address) (eventType : Symbol) (metadata : Bytes)
    (category subEventType : Option Symbol) (force : Bool) (customKey : Option D) : Fn D D := do
  ifSome customKey fun key => setTemp .pendingCustomDedupKey () key
  let id ← logEventWithHierarchy H submitter eventType metadata category subEventType force
  removeTemp .pendingCustomDedupKey ()
  return id

/-! ## Nonces -/

/-- `get_submitter_nonce` -/
def getSubmitterNonce (submitter : Address) : Fn D ℕ := do
  return ((← get .submitterNonce submitter).map (·.lastNonce)).getD 0

/-- `set_submitter_nonce_config` -/
def setSubmitterNonceConfig (H : Host D) (caller submitter : Address) (windowSize maxNonce : ℕ) :
    Fn D Unit := do
  requireCaller caller
  rejectIf (maxNonce = 0) .nonceExhausted
  let current ← submitterNonceState H submitter
  set .submitterNonceConfig submitter ⟨current.lastNonce, windowSize, maxNonce⟩
  publish ["nonce_config_set"] [.addr submitter, .nat windowSize, .nat maxNonce]

/-- `reset_submitter_nonce` -/
def resetSubmitterNonce (H : Host D) (caller submitter : Address) : Fn D Unit := do
  requireCaller caller
  let state ← submitterNonceState H submitter
  set .submitterNonce submitter ⟨0, state.windowSize, state.maxNonce⟩
  remove .submitterNonceConfig submitter
  publish ["nonce_reset"] [.addr submitter, .addr caller]

/-- `set_default_nonce_config` -/
def setDefaultNonceConfig (caller : Address) (windowSize maxNonce : ℕ) : Fn D Unit := do
  requireCaller caller
  rejectIf (maxNonce = 0) .nonceExhausted
  set .defaultNonceWindowSize () windowSize
  set .defaultNonceMaxValue () maxNonce
  publish ["default_nonce_config_set"] [.addr caller, .nat windowSize, .nat maxNonce]

/-! ## Reading and writing -/

-- the size that instance search counts doubles with every step of a `do` block
set_option synthInstance.maxSize 1000000000

section
variable {W : List DataKey}

instance (H : Host D) (submitter : Address) (eventType : Symbol) (metadata : Bytes)
    (category : Symbol) (subEventType : Option Symbol) (index : ℕ) (prevHash : D) :
    Reads (buildEvent H submitter eventType metadata category subEventType index prevHash) := by
  unfold buildEvent; infer_instance
instance (H : Host D) (index : ℕ) : Reads (prevLink H index : Fn D _) := by
  unfold prevLink; infer_instance
instance (index timestamp prevTimestamp : ℕ) :
    Reads (checkDrift index timestamp prevTimestamp : Fn D _) := by
  unfold checkDrift; infer_instance
instance : Reads (readRuntimeState : Fn D _) := by
  unfold readRuntimeState; infer_instance
instance : Reads (readRuntimeStateBatch : Fn D _) := by
  unfold readRuntimeStateBatch; infer_instance
instance (eventType : Symbol) : Reads (checkCap eventType : Fn D _) := by
  unfold checkCap; infer_instance
instance (H : Host D) (policy : DedupPolicy) (eventType : Symbol) (submitter : Address)
    (metadata : Bytes) : Reads (findDuplicate H policy eventType submitter metadata) := by
  unfold findDuplicate; cases policy <;> infer_instance
instance (H : Host D) (force : Bool) (policy : DedupPolicy) (eventType : Symbol)
    (submitter : Address) (metadata : Bytes) :
    Reads (searchDuplicate H force policy eventType submitter metadata) := by
  unfold searchDuplicate; infer_instance
instance (counts : List (Address × ℕ)) (submitter : Address) :
    Reads (checkBatchRate counts submitter : Fn D _) := by
  unfold checkBatchRate; infer_instance
instance (counts : List (Symbol × ℕ)) (eventType : Symbol) :
    Reads (checkBatchCap counts eventType : Fn D _) := by
  unfold checkBatchCap; infer_instance
instance (acc : BatchCounts) (item : Address × Symbol × Bytes) :
    Reads (checkBatchItem acc item : Fn D _) := by
  unfold checkBatchItem; infer_instance
instance (H : Host D) (submitter : Address) : Reads (submitterNonceState H submitter : Fn D _) := by
  unfold submitterNonceState; infer_instance

instance (eventId : D) (evt : Event D) [In .eventData W] [In .eventOrder W] [In .eventHeaderKey W]
    [In .eventMetadata W] :
    Writes (layout D) W (placeEvent eventId evt) := by
  unfold placeEvent; infer_instance
instance (eventType : Symbol) (globalIndex : ℕ) [In .eventTypeIndices W] :
    Writes (layout D) W (pushTypeIndex eventType globalIndex) := by
  unfold pushTypeIndex; infer_instance
instance (submitter : Address) (globalIndex : ℕ) [In .submitterEventIndices W] [In .submitterEventCount W] :
    Writes (layout D) W (pushSubmitterIndex submitter globalIndex) := by
  unfold pushSubmitterIndex; infer_instance
instance (submitter : Address) (eventType : Symbol) (index : ℕ) :
    Writes (layout D) W (emitLogged submitter eventType index) := by
  unfold emitLogged; infer_instance
instance (total : ℕ) [In .runtimeState W] :
    Writes (layout D) W (syncTotalEvents total) := by
  unfold syncTotalEvents; infer_instance
instance [In .logEventReentrancyGuard W] : Writes (layout D) W enterGuard := by
  unfold enterGuard; infer_instance
instance (submitter : Address) [In .submitterRateState W] :
    Writes (layout D) W (chargeRate submitter) := by
  unfold chargeRate; infer_instance
instance (H : Host D) (policy : DedupPolicy) (eventType : Symbol) (submitter : Address)
    (metadata : Bytes) (index timestamp : ℕ) [In .eventContentHash W] [In .eventContentHashWithTs W]
    [In .eventCustomKey W] :
    Writes (layout D) W (recordDedup H policy eventType submitter metadata index timestamp) := by
  unfold recordDedup; cases policy <;> infer_instance

/-- The keys `initialize` writes. -/
abbrev initWrites : List DataKey :=
  [.owner, .owners, .config, .globalMaxLogs, .globalMetadataMaxSize, .runtimeState, .totalEvents,
    .paused, .contractVersion, .defaultNonceWindowSize, .defaultNonceMaxValue, .rbacEnabled, .role]

instance (owners : List Address) (globalMaxLogs maxMetadataBytes : ℕ) :
    Writes (layout D) initWrites (initializeLedger owners globalMaxLogs maxMetadataBytes) := by
  unfold initializeLedger; infer_instance

/-- The packed indices and the counters of both paths. -/
abbrev indexWrites : List DataKey :=
  [.eventTypeIndices, .submitterEventIndices, .submitterEventCount, .eventTypeCount]

/-- What `log_events` writes for every event. -/
abbrev itemWrites : List DataKey :=
  [.eventData, .eventOrder, .eventHeaderKey, .eventMetadata] ++ indexWrites

/-- What `log_events` writes. -/
abbrev batchWrites : List DataKey := [.config, .runtimeState] ++ itemWrites

/-- What `appendSingle` writes. -/
abbrev appendWrites : List DataKey :=
  [.eventContentHash, .eventContentHashWithTs, .eventCustomKey, .logEventReentrancyGuard,
    .pendingCustomDedupKey] ++ batchWrites

/-- What `log_event_with_hierarchy` writes. -/
abbrev singleWrites : List DataKey := .submitterRateState :: appendWrites

instance (eventType : Symbol) (submitter : Address) (index : ℕ) (typeCount : Option ℕ)
    [Sub indexWrites W] :
    Writes (layout D) W (indexSingle eventType submitter index typeCount) :=
  Writes.mono (V := indexWrites) (by unfold indexSingle; infer_instance)

instance (H : Host D) (submitter : Address) (eventType : Symbol) (metadata : Bytes)
    (category subEventType : Option Symbol) (cfg : Config) (policy : DedupPolicy)
    (typeCount : Option ℕ) [Sub appendWrites W] :
    Writes (layout D) W
      (appendSingle H submitter eventType metadata category subEventType cfg policy typeCount) :=
  Writes.mono (V := appendWrites) (by unfold appendSingle; infer_instance)

instance [Sub singleWrites W] (H : Host D) (submitter : Address) (eventType : Symbol)
    (metadata : Bytes) (category subEventType : Option Symbol) (force : Bool) :
    Writes (layout D) W
      (logEventWithHierarchy H submitter eventType metadata category subEventType force) :=
  Writes.mono (V := singleWrites) (by unfold logEventWithHierarchy; infer_instance)

instance (eventType : Symbol) (submitter : Address) (index : ℕ) [Sub indexWrites W] :
    Writes (layout D) W (indexBatch eventType submitter index) :=
  Writes.mono (V := indexWrites) (by unfold indexBatch; infer_instance)

instance (H : Host D) (acc : BatchTail D) (item : Address × Symbol × Bytes) [Sub itemWrites W] :
    Writes (layout D) W (appendBatchItem H acc item) :=
  Writes.mono (V := itemWrites) (by unfold appendBatchItem; infer_instance)

instance (H : Host D) (events : List (Address × Symbol × Bytes)) :
    Writes (layout D) batchWrites (logEvents H events) := by
  unfold logEvents; infer_instance

end

end AuditLedger
