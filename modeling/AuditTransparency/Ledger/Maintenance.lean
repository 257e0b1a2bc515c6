/-
  AuditLedger — archive, snapshots and clean-up.

  None of these functions changes the order of the log or an event in it: the
  archive keeps copies, the clean-up functions remove index and dedup entries.
-/
import AuditTransparency.Ledger.Rewriting

namespace AuditLedger

open Soroban
open Soroban.Call hiding hasPers publish

variable {D : Type} [DecidableEq D]

/-! ## Archive -/

/-- `tag_raw_bytes` -/
def tagRawBytes (payload : Bytes) : Bytes := 0x00 :: payload

/-- A run of `run` copies of `b`: a run item from three on, else literals, with
    the two tag bytes escaped. -/
def encodeRun (b : UInt8) (run : ℕ) : Bytes :=
  if run ≥ 3 then [0x01, b, byteAt run 0, byteAt run 8]
  else (List.replicate run (if b = 0x00 ∨ b = 0x01 then [0x00, b] else [b])).flatten

/-- The runs of a payload of length at most `fuel`. -/
def encodeRuns : (fuel : ℕ) → Bytes → Bytes
  | _, [] => []
  | 0, _ => []
  | n + 1, b :: rest =>
    let more := (rest.takeWhile (· = b)).length
    encodeRun b (more + 1) ++ encodeRuns n (rest.drop more)

/-- `compress_bytes` -/
def compressBytes (payload : Bytes) : Bytes := 0x01 :: encodeRuns payload.length payload

/-- `HEX` -/
def hexDigit (n : UInt8) : UInt8 := if n < 10 then 48 + n else 87 + n

/-- `build_archive_url`: the base URL, then the id in hexadecimal. -/
def buildArchiveUrl (H : Host D) (config : ArchiveConfig) (id : D) : Bytes :=
  config.baseUrl ++ (H.bytesOf id).flatMap fun b : UInt8 =>
    [hexDigit ((b >>> 4) &&& 0x0f), hexDigit (b &&& 0x0f)]

/-- What the loop of `archive_events` carries; `stopped` is its `break`. -/
structure ArchiveScan where
  i : ℕ
  archived : ℕ
  compressedCount : ℕ
  offchainCount : ℕ
  moved : ℕ
  stopped : Bool

/-- The copy of an event the archive keeps, and the counters it increments. -/
def archiveCopy (H : Host D) (config : ArchiveConfig) (acc : ArchiveScan) (id : D) (evt : Event D) :
    Fn D ArchiveScan := do
  let header ← get .eventHeaderKey id
  ifSome header fun header => set .archivedEventHeaderKey id header
  let metadata := (← get .eventMetadata id).getD []
  let compress := config.compression = 1
  let compressed ← (if compress then addChecked 32 acc.compressedCount 1 else pure acc.compressedCount)
  if config.offchainStorage then do
    set .archivedEventMetadata id (if compress then compressBytes metadata else tagRawBytes metadata)
    set .archivedEventRefKey id {
      id
      index := acc.i
      checksum := evt.eventHash
      url := buildArchiveUrl H config id
      archivedAt := (← getEnv).timestamp }
    let offchain ← addChecked 32 acc.offchainCount 1
    return { acc with compressedCount := compressed, offchainCount := offchain }
  else do
    let stored := if compress then compressBytes metadata else metadata
    set .archivedEventData id (if compress then { evt with metadata := stored } else evt)
    set .archivedEventMetadata id stored
    return { acc with compressedCount := compressed }

/-- One round of the loop of `archive_events`. -/
def archiveEvent (H : Host D) (config : ArchiveConfig) (cutoffTimestamp : ℕ) (acc : ArchiveScan) :
    Fn D ArchiveScan := do
  let id ← unwrap (← get .eventOrder acc.i)
  let flag ← get .eventArchivedFlag id
  if flag.isSome then
    return { acc with i := acc.i + 1 }
  else do
    let evt ← unwrap (← get .eventData id)
    if evt.timestamp ≥ cutoffTimestamp then
      return { acc with stopped := true }
    else do
      let acc ← archiveCopy H config acc id evt
      set .eventArchivedFlag id true
      set .archivedEventOrder acc.archived id
      let archived ← addChecked 32 acc.archived 1
      return { acc with archived, moved := acc.moved + 1, i := acc.i + 1 }

/-- `archive_events` -/
def archiveEvents (H : Host D) (caller : Address) (cutoffTimestamp : ℕ) : Fn D ℕ := do
  requireAuth caller
  requireOwnerOrMultisig caller
  let total ← totalEvents
  let config := (← get .archiveConfig ()).getD .defaultConfig
  let cursor := (← get .archiveScanCursor ()).getD 0
  let start : ArchiveScan := {
    i := cursor
    archived := (← get .archivedTotalEvents ()).getD 0
    compressedCount := (← get .archivedCompressedCount ()).getD 0
    offchainCount := (← get .archivedOffchainCount ()).getD 0
    moved := 0
    stopped := false }
  let acc ← (List.range (total - cursor)).foldlM
    (fun acc _ => if acc.stopped then pure acc else archiveEvent H config cutoffTimestamp acc) start
  set .archiveScanCursor () acc.i
  set .archivedTotalEvents () acc.archived
  doIf (acc.moved > 0) do
    set .archivedCompressedCount () acc.compressedCount
    set .archivedOffchainCount () acc.offchainCount
  publish ["events_archived"] [.nat acc.moved]
  return acc.moved

/-- One round of the loop of `purge_archived_events`. -/
def purgeArchivedEvent (cutoffTimestamp : ℕ) (removed i : ℕ) : Fn D ℕ := do
  let id ← get .archivedEventOrder i
  onSome id
    (fun id => do
      let evt ← get .archivedEventData id
      if ∃ e ∈ evt, e.timestamp < cutoffTimestamp then do
        remove .archivedEventData id
        remove .archivedEventHeaderKey id
        remove .archivedEventMetadata id
        remove .archivedEventOrder i
        return removed + 1
      else
        return removed)
    (pure removed)

/-- `purge_archived_events` -/
def purgeArchivedEvents (caller : Address) (cutoffTimestamp : ℕ) (confirm : Bool) : Fn D ℕ := do
  requireAuth caller
  requireOwnerOrMultisig caller
  if ¬confirm then
    return 0
  else do
    let total := (← get .archivedTotalEvents ()).getD 0
    let removed ← (List.range total).foldlM (purgeArchivedEvent cutoffTimestamp) 0
    publish ["archived_events_purged"] [.nat removed]
    return removed

/-- `is_compressed_tag` -/
def isCompressedTag (payload : Bytes) : Bool := payload.head? = some 0x01

/-- The items of a compressed payload.  A run item is three bytes and one more that
    follows; without them its tag byte is passed over. -/
def expandItems : Bytes → Bytes
  | [] => []
  | c :: rest =>
    if c = 0x00 then
      match rest with
      | [] => []
      | b :: rest => b :: expandItems rest
    else if c = 0x01 then
      match rest with
      | b :: lo :: hi :: x :: rest =>
        List.replicate (lo.toNat ||| (hi.toNat <<< 8)) b ++ expandItems (x :: rest)
      | rest => expandItems rest
    else
      c :: expandItems rest

/-- `expand_archived_metadata` -/
def expandArchivedMetadata (payload : Bytes) : Bytes :=
  match payload with
  | [] => []
  | tag :: rest => if tag = 0x00 then rest else if tag ≠ 0x01 then payload else expandItems rest

/-- `get_archived_event` -/
def getArchivedEvent (H : Host D) (id : D) : Fn D (Event D) := do
  let stored ← get .archivedEventData id
  onSome stored
    (fun evt =>
      pure (if isCompressedTag evt.metadata then
        { evt with metadata := expandArchivedMetadata evt.metadata }
      else evt))
    do
      let proof ← unwrapOr (← get .archivedEventRefKey id) .eventDoesNotExist
      let header ← unwrapOr (← get .archivedEventHeaderKey id) .eventDoesNotExist
      let metadata := expandArchivedMetadata ((← get .archivedEventMetadata id).getD [])
      let version ← currentContractVersion
      return {
        index := header.index
        timestamp := header.timestamp
        eventType := header.eventType
        category := "general"
        submitter := header.submitter
        metadata
        subEventType := none
        version
        eventHash := proof.checksum
        prevHash := H.zeros
        parentEventId := none }

/-! ## Snapshots and version tags -/

/-- `create_snapshot` -/
def createSnapshot (H : Host D) (caller : Address) (description : Bytes) : Fn D ℕ := do
  requireCaller caller
  let total ← totalEvents
  let timestamp := (← getEnv).timestamp
  let last ← prevLink H total
  let snapId := (← get .snapshotCount ()).getD 0
  set .snapshotData snapId ⟨snapId, timestamp, total, last.1, description⟩
  let count ← addChecked 32 snapId 1
  set .snapshotCount () count
  publish ["snapshot_created"] [.nat snapId, .nat timestamp, .nat total]
  return snapId

/-- `verify_snapshot` -/
def verifySnapshot (H : Host D) (snapshotId : ℕ) : Fn D Bool := do
  requireInitialized
  let snapshot ← unwrapOr (← get .snapshotData snapshotId) .snapshotNotFound
  let total ← totalEvents
  if snapshot.eventCount > total then
    return false
  else if snapshot.eventCount = 0 then
    return snapshot.eventHash = H.zeros
  else do
    let lastId ← get .eventOrder (snapshot.eventCount - 1)
    onSome lastId
      (fun lastId => do
        let lastEvt ← get .eventData lastId
        onSome lastEvt (fun evt => pure (decide (evt.eventHash = snapshot.eventHash))) (pure false))
      (pure false)

/-- `tag_event_version` -/
def tagEventVersion (caller : Address) (index version : ℕ) (tag : Symbol) : Fn D Unit := do
  requireCaller caller
  let total ← totalEvents
  rejectIf (index ≥ total) .eventDoesNotExist
  let trail ← getEventHistory index
  rejectIf (version ≥ trail.length) .invalidVersion
  set .eventVersionTag (index, version) tag
  publish ["versioning", "version_tagged"] [.addr caller, .nat index, .nat version, .sym tag]

/-! ## Dedup entries -/

/-- Removes the `EventContentHash` entry of the content at position `idx` when it
    records another position. -/
def cleanContentHash (contentHash : D) (idx cleaned : ℕ) : Fn D ℕ := do
  let stored ← get .eventContentHash contentHash
  if ∃ i ∈ stored, i ≠ idx then do
    remove .eventContentHash contentHash
    return cleaned + 1
  else
    return cleaned

/-- The same for the `EventContentHashWithTs` entry. -/
def cleanContentHashWithTs (contentHash : D) (idx cleaned : ℕ) : Fn D ℕ := do
  let stored ← get .eventContentHashWithTs contentHash
  if ∃ e ∈ stored, e.1 ≠ idx then do
    remove .eventContentHashWithTs contentHash
    return cleaned + 1
  else
    return cleaned

/-- The content hash of the event at position `idx`, when there is one. -/
def contentHashAt (H : Host D) (idx : ℕ) : Fn D (Option D) := do
  let env ← getEnv
  let id ← get .eventOrder idx
  onSome id
    (fun id => do
      let evt ← get .eventData id
      return evt.map fun e => computeContentHash H env e.eventType e.submitter e.metadata)
    (pure none)

/-- One round of the loop of `cleanup_stale_hashes`. -/
def cleanStaleHash (H : Host D) (cleaned idx : ℕ) : Fn D ℕ := do
  let contentHash ← contentHashAt H idx
  onSome contentHash (fun contentHash => cleanContentHash contentHash idx cleaned) (pure cleaned)

/-- One round of the loop of `cleanup_stale_dedup_entries`. -/
def cleanStaleDedup (H : Host D) (cleaned idx : ℕ) : Fn D ℕ := do
  let contentHash ← contentHashAt H idx
  onSome contentHash
    (fun contentHash => do
      let cleaned ← cleanContentHash contentHash idx cleaned
      cleanContentHashWithTs contentHash idx cleaned)
    (pure cleaned)

/-- The two clean-up functions: a round for every position of the window, and a
    notification. -/
def cleanupWindow (round : ℕ → ℕ → Fn D ℕ) (topic : Symbol) (caller : Address)
    (startIndex batchSize : ℕ) : Fn D ℕ := do
  requireCaller caller
  let total ← totalEvents
  let stop ← addChecked 32 startIndex batchSize
  let cleaned ← (List.range' startIndex (min stop total - startIndex)).foldlM round 0
  publish [topic] [.nat cleaned]
  return cleaned

/-- `cleanup_stale_hashes` -/
def cleanupStaleHashes (H : Host D) (caller : Address) (startIndex batchSize : ℕ) : Fn D ℕ :=
  cleanupWindow (cleanStaleHash H) "stale_hashes_cleaned" caller startIndex batchSize

/-- `cleanup_stale_dedup_entries` -/
def cleanupStaleDedupEntries (H : Host D) (caller : Address) (startIndex batchSize : ℕ) : Fn D ℕ :=
  cleanupWindow (cleanStaleDedup H) "stale_dedup_cleaned" caller startIndex batchSize

/-! ## Compaction and expiry -/

/-- One round of the loop of `compact_storage`. -/
def compactType (removed : ℕ) (eventType : Symbol) : Fn D ℕ := do
  let cap ← get .eventCapConfig eventType
  let packed ← get .eventTypeIndices eventType
  if cap.isNone ∧ packed.isSome then do
    remove .eventTypeIndices eventType
    return removed + 1
  else
    return removed

/-- `compact_storage` -/
def compactStorage (caller : Address) (staleTypes : List Symbol) : Fn D ℕ := do
  requireCaller caller
  let removed ← staleTypes.foldlM compactType 0
  publish ["storage_compacted"] [.nat removed]
  return removed

def emptyTtlCleanupStats : TtlCleanupStats := ⟨0, 0, 0, 0⟩

/-- `u32::saturating_add` -/
def saturatingAdd (a b : ℕ) : ℕ := min (a + b) (2 ^ 32 - 1)

/-- `cleanup_expired_events` -/
def cleanupExpiredEvents (caller : Address) (startIndex batchSize : ℕ) : Fn D ℕ := do
  requireCaller caller
  let ttl ← get .eventTtl ()
  if ttl.getD 0 = 0 then
    return 0
  else do
    let total ← totalEvents
    let stop := if saturatingAdd startIndex batchSize < total then startIndex + batchSize else total
    let removed ← (List.range' startIndex (stop - startIndex)).foldlM
      (fun removed i => do
        let id ← get .eventOrder i
        onSome id
          (fun id => do
            let present ← hasPers .eventData id
            return if present then removed else removed + 1)
          (pure removed)) 0
    let stats := (← get .ttlCleanupStats ()).getD emptyTtlCleanupStats
    let sequence := (← getEnv).sequence
    set .ttlCleanupStats () { stats with
      runs := saturatingAdd stats.runs 1
      cleaned := saturatingAdd stats.cleaned removed
      lastRunLedger := sequence }
    publish ["ttl_cleanup", "expired_removed"]
      [.addr caller, .nat startIndex, .nat stop, .nat removed]
    return removed

/-- `get_event`: a read of an event with a live persistent copy is counted. -/
def getEvent (id : D) : Fn D (Event D) := do
  requireInitialized
  let evt ← unwrapOr (← get .eventData id) .eventDoesNotExist
  let ttl ← get .eventTtl ()
  let present ← hasPers .eventData id
  doIf (ttl.getD 0 > 0 ∧ present) do
    let stats := (← get .ttlCleanupStats ()).getD emptyTtlCleanupStats
    set .ttlCleanupStats () { stats with ttlExtensions := saturatingAdd stats.ttlExtensions 1 }
  return evt

/-! ## Reading and writing -/

set_option synthInstance.maxSize 1000000000

section
variable {W : List DataKey}

instance (H : Host D) (config : ArchiveConfig) (acc : ArchiveScan) (id : D) (evt : Event D)
    [In .archivedEventHeaderKey W] [In .archivedEventMetadata W] [In .archivedEventRefKey W]
    [In .archivedEventData W] :
    Writes (layout D) W (archiveCopy H config acc id evt) := by
  unfold archiveCopy; infer_instance
instance (H : Host D) (config : ArchiveConfig) (cutoffTimestamp : ℕ) (acc : ArchiveScan)
    [In .archivedEventHeaderKey W] [In .archivedEventMetadata W] [In .archivedEventRefKey W]
    [In .archivedEventData W] [In .eventArchivedFlag W] [In .archivedEventOrder W] :
    Writes (layout D) W (archiveEvent H config cutoffTimestamp acc) := by
  unfold archiveEvent; infer_instance
instance (cutoffTimestamp removed i : ℕ)
    [In .archivedEventHeaderKey W] [In .archivedEventMetadata W] [In .archivedEventData W]
    [In .archivedEventOrder W] :
    Writes (layout D) W (purgeArchivedEvent cutoffTimestamp removed i) := by
  unfold purgeArchivedEvent; infer_instance
instance (H : Host D) (idx : ℕ) : Reads (contentHashAt H idx : Fn D _) := by
  unfold contentHashAt; infer_instance
instance (contentHash : D) (idx cleaned : ℕ) [In .eventContentHash W] :
    Writes (layout D) W (cleanContentHash contentHash idx cleaned) := by
  unfold cleanContentHash; infer_instance
instance (contentHash : D) (idx cleaned : ℕ) [In .eventContentHashWithTs W] :
    Writes (layout D) W (cleanContentHashWithTs contentHash idx cleaned) := by
  unfold cleanContentHashWithTs; infer_instance
instance (H : Host D) (cleaned idx : ℕ) [In .eventContentHash W] :
    Writes (layout D) W (cleanStaleHash H cleaned idx) := by
  unfold cleanStaleHash; infer_instance
instance (H : Host D) (cleaned idx : ℕ) [In .eventContentHash W] [In .eventContentHashWithTs W] :
    Writes (layout D) W (cleanStaleDedup H cleaned idx) := by
  unfold cleanStaleDedup; infer_instance
instance (round : ℕ → ℕ → Fn D ℕ) (topic : Symbol) (caller : Address) (startIndex batchSize : ℕ)
    [∀ cleaned idx, Writes (layout D) W (round cleaned idx)] :
    Writes (layout D) W (cleanupWindow round topic caller startIndex batchSize) := by
  unfold cleanupWindow; infer_instance
instance (removed : ℕ) (eventType : Symbol) [In .eventTypeIndices W] :
    Writes (layout D) W (compactType removed eventType) := by
  unfold compactType; infer_instance

end

end AuditLedger
