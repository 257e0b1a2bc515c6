/-
  Relayer — the relay of events to the EVM chain (`bridge/relayer/index.ts`, with `filter.ts`,
  `transform.ts` and `batch.ts`).

  A poll fetches events, collects those that pass the filter and are not duplicates, and submits
  the batch once it is full or old enough.  What the outside answers to a poll is given with it:
  `Answers` says how each call ends, and when.

  A state also has what went where no function of the relayer looks: the events that the chain
  has accepted, and those that were shifted out of the dead letter queue.
-/
import AuditTransparency.Credentials.Json
import AuditTransparency.Relayer.Recovery
import AuditTransparency.Soroban.Run

namespace Relayer

/-! ## Events -/

/-- A number of the source: an integer, or `NaN`. -/
abbrev Number := Option ℤ

/-- `a < b` -/
def Number.lt : Number → Number → Bool
  | some a, some b => a < b
  | _, _ => false

/-- `Math.max` -/
def Number.max : Number → Number → Number
  | some a, some b => some (Max.max a b)
  | _, _ => none

def Number.succ (n : Number) : Number := n.map (· + 1)

def Number.toText : Number → Text
  | some n => (toString n).toList
  | none => "NaN".toList

structure AuditEvent where
  index : Number
  timestamp : Number
  eventType : Text
  submitter : Text
  metadata : Text
  eventHash : Text
  ledgerSeq : Number
  txHash : Text
  deriving DecidableEq

/-! ## Filter -/

structure ListFilter where
  includes : List Text := []
  excludes : List Text := []

structure TimeRangeFilter where
  fromTimestamp : Option Number := none
  toTimestamp : Option Number := none

structure FilterConfig where
  eventType : Option ListFilter := none
  submitter : Option ListFilter := none
  timeRange : Option TimeRangeFilter := none

/-- Why a filter rejects the value of a field. -/
def matchesList (field value : Text) : Option ListFilter → Option Text
  | none => none
  | some filter =>
    if filter.includes ≠ [] ∧ value ∉ filter.includes then
      some (field ++ " '".toList ++ value ++ "' not in include list".toList)
    else if value ∈ filter.excludes then some (field ++ " '".toList ++ value ++ "' is excluded".toList)
    else none

def matchesEventType (event : AuditEvent) (filter : Option ListFilter) : Option Text :=
  matchesList "event_type".toList event.eventType filter

def matchesSubmitter (event : AuditEvent) (filter : Option ListFilter) : Option Text :=
  matchesList "submitter".toList event.submitter filter

def matchesTimeRange (event : AuditEvent) : Option TimeRangeFilter → Option Text
  | none => none
  | some filter =>
    let reason (side : Text) (bound : Number) : Text :=
      "timestamp ".toList ++ event.timestamp.toText ++ side ++ bound.toText
    let before := filter.fromTimestamp.bind fun fromT =>
      if event.timestamp.lt fromT then some (reason " before fromTimestamp ".toList fromT) else none
    let after := filter.toTimestamp.bind fun toT =>
      if toT.lt event.timestamp then some (reason " after toTimestamp ".toList toT) else none
    before <|> after

/-- `test`: why the event is rejected; `none` if it passes all filters. -/
def FilterConfig.test (c : FilterConfig) (event : AuditEvent) : Option Text :=
  matchesEventType event c.eventType <|> matchesSubmitter event c.submitter <|>
    matchesTimeRange event c.timeRange

/-- `apply`, the events that pass. -/
def FilterConfig.passed (c : FilterConfig) (events : List AuditEvent) : List AuditEvent :=
  events.filter fun event => (c.test event).isNone

/-! ## Transformation -/

/-- `JSON.stringify` of a number. -/
def Number.toJson : Number → Text
  | some n => (toString n).toList
  | none => "null".toList

/-- The check of a field, and its value as `JSON.stringify` writes it.  A fetched event has all fields, so
    none is missing. -/
structure TransformationRule where
  sourceField : Text
  value : AuditEvent → Text
  validator : AuditEvent → Bool

/-- `length` of a string: its UTF-16 code units. -/
def utf16Length (t : Text) : ℕ := (t.map fun c => if c.toNat < 0x10000 then 1 else 2).sum

/-- `/^[0-9a-f]{64}$/i` -/
def isHash (t : Text) : Bool :=
  t.length = 64 && t.all fun c => c.isDigit || ('a' ≤ c.toLower && c.toLower ≤ 'f')

def stripPrefix : Text → Text
  | '0' :: 'x' :: t => t
  | t => t

/-- `DEFAULT_VALIDATORS`, in the order of `DEFAULT_FIELD_MAPPINGS` -/
def defaultRules : List TransformationRule := [
  ⟨"index".toList, fun e => e.index.toJson, fun e => e.index.any (0 ≤ ·)⟩,
  ⟨"timestamp".toList, fun e => e.timestamp.toJson, fun e => e.timestamp.any (0 < ·)⟩,
  ⟨"event_type".toList, fun e => Json.quote e.eventType,
    fun e => 0 < utf16Length e.eventType && utf16Length e.eventType ≤ 64⟩,
  ⟨"submitter".toList, fun e => Json.quote e.submitter, fun e => 0 < utf16Length e.submitter⟩,
  ⟨"metadata".toList, fun e => Json.quote e.metadata, fun _ => true⟩,
  ⟨"event_hash".toList, fun e => Json.quote e.eventHash, fun e => isHash e.eventHash⟩,
  ⟨"ledger_seq".toList, fun e => e.ledgerSeq.toJson, fun e => e.ledgerSeq.any (0 < ·)⟩,
  ⟨"tx_hash".toList, fun e => Json.quote e.txHash, fun e => isHash (stripPrefix e.txHash)⟩]

structure EventTransformer where
  strictValidation : Bool := false
  rules : List TransformationRule := defaultRules

structure TransformationResult where
  success : Bool
  errors : List Text
  warnings : List Text

def EventTransformer.validateEvent (t : EventTransformer) (event : AuditEvent) : List Text :=
  (t.rules.filter fun rule => !rule.validator event).map fun rule =>
    "Invalid value for field ".toList ++ rule.sourceField ++ ": ".toList ++ rule.value event

/-- `transformEvent`; the transformed fields go to the chain only. -/
def EventTransformer.transformEvent (t : EventTransformer) (event : AuditEvent) : TransformationResult :=
  let errors := t.validateEvent event
  if errors ≠ [] ∧ t.strictValidation = true then ⟨false, errors, []⟩
  else ⟨true, [], errors.map ("Validation warning: ".toList ++ ·)⟩

/-- Without strict validation, which the relayer does not ask for, no event is refused. -/
theorem EventTransformer.transformEvent_success {t : EventTransformer} (h : t.strictValidation = false)
    (event : AuditEvent) : (t.transformEvent event).success = true := by
  rw [transformEvent, if_neg]
  rintro ⟨-, hstrict⟩
  rw [h] at hstrict
  cases hstrict

/-! ## Proofs -/

structure EventProof where
  ledgerSeq : ℕ
  txHash : Text
  eventIndex : Number
  eventHash : Text
  signature : Text
  deriving DecidableEq

structure CachedProof where
  proof : EventProof
  timestamp : ℕ
  deriving DecidableEq

/-- The entries, the one used last at the end. -/
abbrev ProofCache := List (Text × CachedProof)

namespace ProofCache

def delete (c : ProofCache) (eventHash : Text) : ProofCache := c.filter fun entry => entry.1 ≠ eventHash

/-- `get`: the proof, and the cache after it. -/
def get (ttlMs : ℕ) (c : ProofCache) (eventHash : Text) (now : ℕ) : Option EventProof × ProofCache :=
  match c.find? fun entry => entry.1 = eventHash with
  | none => (none, c)
  | some (_, cached) =>
    if cached.timestamp + ttlMs < now then (none, c.delete eventHash)
    else (some cached.proof, c.delete eventHash ++ [(eventHash, cached)])

def set (maxSize : ℕ) (c : ProofCache) (eventHash : Text) (proof : EventProof) (now : ℕ) : ProofCache :=
  let c' := c.delete eventHash ++ [(eventHash, ⟨proof, now⟩)]
  if maxSize < c'.length then c'.tail else c'

end ProofCache

/-! ## Batches -/

structure BatchCollector where
  pending : List AuditEvent := []
  windowStart : Option ℕ := none

def BatchCollector.add (c : BatchCollector) (event : AuditEvent) (now : ℕ) : BatchCollector :=
  ⟨c.pending ++ [event], if c.pending = [] then some now else c.windowStart⟩

/-- `isReady`: the batch is full, or the window has elapsed. -/
def BatchCollector.isReady (c : BatchCollector) (maxBatchSize maxWaitMs now : ℕ) : Bool :=
  c.pending ≠ [] ∧ (maxBatchSize ≤ c.pending.length ∨ ∃ start ∈ c.windowStart, start + maxWaitMs ≤ now)

structure BatchProofEntry where
  event : AuditEvent
  proof : Option EventProof
  deriving DecidableEq

structure BatchSubmissionResult where
  batchId : ℕ
  submitted : ℕ
  failed : ℕ
  deriving DecidableEq

structure BatchStatistics where
  batchesCollected : ℕ := 0
  batchesSubmitted : ℕ := 0
  eventsProcessed : ℕ := 0
  eventsFailed : ℕ := 0
  lastBatchSize : ℕ := 0
  deriving DecidableEq

structure BatchProcessor where
  collector : BatchCollector := {}
  stats : BatchStatistics := {}
  nextBatchId : ℕ := 1

/-! ## States -/

/-- What the relayer is started with. -/
structure Config where
  filter : FilterConfig := {}
  transformer : EventTransformer := {}
  maxDedupSize : ℕ := 10000
  proofCacheMaxSize : ℕ := 1000
  proofCacheTtlMs : ℕ := 3600000
  batchMaxSize : ℕ := 25
  batchMaxWaitMs : ℕ := 10000

/-- The strategies of the relayer: more retries after errors of the contract. -/
def strategies : ErrorCategory → RecoveryStrategy :=
  Function.update defaultStrategies .contract ⟨3, fun _ => 2000⟩

structure State where
  lastProcessedIndex : Number := some 0
  pollsWithoutEvents : ℕ := 0
  /-- the dedup set, in the order of insertion -/
  submittedEvents : List Text := []
  proofCache : ProofCache := []
  batchProcessor : BatchProcessor := {}
  errorRecoveryManager : ErrorRecoveryManager AuditEvent := ⟨⟨strategies, fun _ => none⟩, {}⟩
  /-- the events that `submitToEvm` has returned for -/
  submitted : List AuditEvent := []
  /-- the events that were shifted out of the dead letter queue -/
  shifted : List AuditEvent := []

def State.pending (s : State) : List AuditEvent := s.batchProcessor.collector.pending

def State.deadLetters (s : State) : List AuditEvent :=
  s.errorRecoveryManager.deadLetterQueue.entries.map DeadLetterEntry.item

/-- How the calls of a poll end: the fetch, and for each event of the batch its proof and its submission.
    The clock is read for each event that is collected, for the batch, and for each event of it. -/
structure Answers where
  fetchLatestEvents : Except Text (List AuditEvent)
  buildProof : ℕ → Option EventProof
  submitToEvm : ℕ → Except Text Unit
  collectedAt : ℕ → ℕ
  readyAt : ℕ
  builtAt : ℕ → ℕ
  failedAt : ℕ → ℕ

/-! ## A poll -/

/-- `isDuplicate`: whether the hash is in the dedup set, and the set with it. -/
def isDuplicate (maxDedupSize : ℕ) (submittedEvents : List Text) (eventHash : Text) : Bool × List Text :=
  if eventHash ∈ submittedEvents then (true, submittedEvents)
  else
    let kept := if maxDedupSize ≤ submittedEvents.length then submittedEvents.drop
      (submittedEvents.length / 2)
      else submittedEvents
    (false, kept ++ [eventHash])

def State.advance (s : State) (event : AuditEvent) : State :=
  { s with lastProcessedIndex := s.lastProcessedIndex.max event.index.succ }

/-- `collect` -/
def State.collect (s : State) (event : AuditEvent) (now : ℕ) : State :=
  { s with batchProcessor := { s.batchProcessor with collector := s.batchProcessor.collector.add event now } }

/-- The loop over the events of a poll, from number `k` on. -/
def collectFrom (C : Config) (A : Answers) : ℕ → List AuditEvent → State → State
  | _, [], s => s
  | k, event :: events, s =>
    let (duplicate, submittedEvents) := isDuplicate C.maxDedupSize s.submittedEvents event.eventHash
    let s := { s with submittedEvents := submittedEvents }
    if duplicate then collectFrom C A (k + 1) events (s.advance event)
    else if (C.transformer.transformEvent event).success then
      collectFrom C A (k + 1) events ((s.collect event (A.collectedAt k)).advance event)
    else collectFrom C A (k + 1) events s

/-- `buildProofCached`, for event `k` of a batch. -/
def buildProofCached (C : Config) (A : Answers) (k : ℕ) (event : AuditEvent) (cache : ProofCache) :
    Option EventProof × ProofCache :=
  match cache.get C.proofCacheTtlMs event.eventHash (A.builtAt k) with
  | (some proof, cache) => (some proof, cache)
  | (none, cache) =>
    match A.buildProof k with
    | some proof => (some proof, cache.set C.proofCacheMaxSize event.eventHash proof (A.builtAt k))
    | none => (none, cache)

/-- `generateBatchProofs`, from event `k` on. -/
def generateBatchProofs (C : Config) (A : Answers) :
    ℕ → List AuditEvent → ProofCache → List BatchProofEntry × ProofCache
  | _, [], cache => ([], cache)
  | k, event :: events, cache =>
    let (proof, cache) := buildProofCached C A k event cache
    let (entries, cache) := generateBatchProofs C A (k + 1) events cache
    (⟨event, proof⟩ :: entries, cache)

/-- `submitBatchEntry`: whether it returns.  The verification that follows a submission cannot fail. -/
def submitBatchEntry (C : Config) (A : Answers) (k : ℕ) (event : AuditEvent) (s : State) : Bool × State :=
  if (C.transformer.transformEvent event).success then
    match A.submitToEvm k with
    | .ok () => (true, { s with
        errorRecoveryManager := s.errorRecoveryManager.resolved event.eventHash
        submitted := s.submitted ++ [event] })
    | .error err =>
      let (_, manager, shifted) := s.errorRecoveryManager.handle event.eventHash event err (A.failedAt k)
      (false, { s with
        errorRecoveryManager := manager
        shifted := s.shifted ++ (shifted.map DeadLetterEntry.item).toList })
  else (false, s)

/-- The loop over the entries of a batch, from entry `k` on: how many are submitted, and how many fail. -/
def submitFrom (C : Config) (A : Answers) : ℕ → List BatchProofEntry → State → (ℕ × ℕ) × State
  | _, [], s => ((0, 0), s)
  | k, entry :: entries, s =>
    let (ok, s) := match entry.proof with
      | some _ => submitBatchEntry C A k entry.event s
      | none => (false, s)
    let ((submitted, failed), s) := submitFrom C A (k + 1) entries s
    (if ok then (submitted + 1, failed) else (submitted, failed + 1), s)

/-- `flush`, and the number of the batch. -/
def State.flush (s : State) : State :=
  { s with batchProcessor := { s.batchProcessor with
    collector := {}
    nextBatchId := s.batchProcessor.nextBatchId + 1 } }

def State.addStats (s : State) (submitted failed : ℕ) : State :=
  let stats := s.batchProcessor.stats
  { s with batchProcessor := { s.batchProcessor with
    stats := ⟨stats.batchesCollected + 1, stats.batchesSubmitted + 1, stats.eventsProcessed + submitted,
      stats.eventsFailed + failed, submitted + failed⟩ } }

def processBatch (C : Config) (A : Answers) (s : State) : BatchSubmissionResult × State :=
  let batchId := s.batchProcessor.nextBatchId
  let events := s.pending
  let s := s.flush
  if events = [] then (⟨batchId, 0, 0⟩, s)
  else
    let (entries, cache) := generateBatchProofs C A 0 events s.proofCache
    let ((submitted, failed), s) := submitFrom C A 0 entries { s with proofCache := cache }
    (⟨batchId, submitted, failed⟩, s.addStats submitted failed)

/-- The events of a poll that pass the filter. -/
def fetched (C : Config) (A : Answers) : List AuditEvent :=
  match A.fetchLatestEvents with
  | .ok rawEvents => C.filter.passed rawEvents
  | .error _ => []

def State.countPoll (s : State) (rawEvents : List AuditEvent) : State :=
  { s with pollsWithoutEvents := if rawEvents = [] then s.pollsWithoutEvents + 1 else 0 }

/-- A poll, before the batch. -/
def collectPoll (C : Config) (A : Answers) (s : State) : State :=
  match A.fetchLatestEvents with
  | .ok rawEvents => collectFrom C A 0 (C.filter.passed rawEvents) (s.countPoll rawEvents)
  | .error _ => s

/-- The batch of a poll is processed: the fetch has not failed, and the batch is ready. -/
def batchReady (C : Config) (A : Answers) (s : State) : Bool :=
  A.fetchLatestEvents.isOk && s.batchProcessor.collector.isReady C.batchMaxSize C.batchMaxWaitMs A.readyAt

/-- One round of the main loop. -/
def poll (C : Config) (A : Answers) (s : State) : State :=
  let s := collectPoll C A s
  if batchReady C A s then (processBatch C A s).2 else s

/-- One step: a poll. -/
def Steps (C : Config) (s : State) (A : Answers) (s' : State) : Prop := poll C A s = s'

end Relayer
