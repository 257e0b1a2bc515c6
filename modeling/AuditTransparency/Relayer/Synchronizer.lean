/-
  CrossChainSynchronizer — events of the ledger for other chains
  (`bridge/relayer/crossChainSync.ts`, `computeMerkleRoot` of `zkProofGenerator.ts`).

  A call fetches a range of events, compares it with what the chain has of them, and submits a
  checkpoint.  What the network answers to a call is given with it: `Answers` says how every
  attempt ends.
-/
import AuditTransparency.Relayer.Merkle
import Mathlib.Logic.Function.Basic

namespace CrossChainSynchronizer

/-- A string of the relayer. -/
abbrev Text := List Char

/-! ## Data -/

/-- An event record: the position of an event and its hash. -/
structure EventRecord where
  index : ℕ
  eventHash : Text
  deriving DecidableEq

structure ConflictRecord where
  chainId : ℕ
  eventIndex : ℕ
  localHash : Text
  remoteHash : Text
  detectedAt : ℕ
  resolved : Bool
  resolvedHash : Option Text
  deriving DecidableEq

structure LatestCheckpoint where
  eventIndex : ℕ
  merkleRoot : Text
  timestamp : ℕ
  deriving DecidableEq

structure CheckpointStatus where
  chainId : ℕ
  lastSyncedIndex : ℕ
  lastSyncTimestamp : ℕ
  totalSynced : ℕ
  pendingConflicts : ℕ
  merkleRoot : Text
  latestCheckpoint : Option LatestCheckpoint
  deriving DecidableEq

structure SyncResult where
  success : Bool
  chainId : ℕ
  fromIndex : ℕ
  toIndex : ℕ
  syncedCount : ℕ
  conflictCount : ℕ
  checkpointHash : Text
  errors : List Text
  deriving DecidableEq

/-- The options that the synchronisation depends on.  The batches are not empty: with a batch size of
    zero the loop that fetches them does not end. -/
structure SyncOptions where
  batchSize : ℕ := 100
  maxRetries : ℕ := 3
  batchSize_pos : 0 < batchSize := by decide

/-- A checkpoint on its way to the contract. -/
structure Submission where
  chainId : ℕ
  eventIndex : ℕ
  merkleRoot : Text
  timestamp : ℕ
  deriving DecidableEq

/-- What a synchronizer keeps, and the checkpoints that it has passed on. -/
structure Synchronizer where
  conflicts : List ConflictRecord := []
  checkpoints : ℕ → Option CheckpointStatus := fun _ => none
  submissions : List Submission := []

/-- How the attempts of a call end, and the time of the call in milliseconds. -/
structure Answers where
  fetchEventBatch : ℕ → ℕ → ℕ → Except Text (List EventRecord)
  fetchRemoteEvents : Except Text (List EventRecord)
  submitSyncEventsToChain : ℕ → Except Text Unit
  submitRecordCheckpoint : ℕ → Except Text Unit
  now : ℕ

inductive Strategy where
  | canonical
  | remote
  deriving DecidableEq

/-! ## Hashes -/

/-- The hash function: SHA-256 of the bytes that a text stands for in hexadecimal. -/
structure Host where
  sha256 : Text → Text

def padStart (n : ℕ) (t : Text) : Text := List.replicate (n - t.length) '0' ++ t

def stripPrefix : Text → Text
  | '0' :: 'x' :: t => t
  | t => t

/-- `normaliseHash`, and `normaliseHex` -/
def normaliseHash (hash : Text) : Text := padStart 64 (stripPrefix (hash.map Char.toLower))

def zeroRoot : Text := '0' :: 'x' :: List.replicate 64 '0'

/-- A node of a tree. -/
def node (H : Host) (left right : Text) : Text := H.sha256 (left ++ right)

def computeMerkleRoot (H : Host) (leaves : List Text) : Text :=
  match Merkle.root? (node H) (leaves.map normaliseHash) with
  | none => zeroRoot
  | some root => '0' :: 'x' :: root

/-! ## Functions -/

/-- The attempts of `_withRetry`, from a number on. -/
def retryFrom {α : Type} (fn : ℕ → Except Text α) (attempt : ℕ) : ℕ → Except Text α
  | 0 => fn attempt
  | left + 1 =>
    match fn attempt with
    | .ok a => .ok a
    | .error _ => retryFrom fn (attempt + 1) left

/-- `_withRetry` -/
def withRetry {α : Type} (O : SyncOptions) (fn : ℕ → Except Text α) : Except Text α :=
  retryFrom fn 0 O.maxRetries

/-- The first events of the batches. -/
def batchStarts (O : SyncOptions) (fromIndex toIndex : ℕ) : List ℕ :=
  (List.range ((toIndex - fromIndex) / O.batchSize + 1)).map fun k => fromIndex + k * O.batchSize

/-- Step 1: the events of a range, batch by batch. -/
def fetchEvents (O : SyncOptions) (A : Answers) (fromIndex toIndex : ℕ) : Except Text (List EventRecord) := do
  let batches ← (batchStarts O fromIndex toIndex).mapM fun i =>
    withRetry O (A.fetchEventBatch i (min (i + O.batchSize - 1) toIndex))
  return batches.flatten

/-- The map of the remote events by their index. -/
def remoteMap (remoteEvents : List EventRecord) : ℕ → Option EventRecord :=
  remoteEvents.foldl (fun m r => Function.update m r.index (some r)) fun _ => none

/-- `detectConflicts`, for one local event -/
def detectConflict (now : ℕ) (remoteEvents : List EventRecord) (localEvent : EventRecord) :
    Option ConflictRecord :=
  match remoteMap remoteEvents localEvent.index with
  | none => none
  | some remote =>
    let localHash := normaliseHash localEvent.eventHash
    let remoteHash := normaliseHash remote.eventHash
    if localHash ≠ remoteHash then
      -- the chain is to be set by the caller
      some ⟨0, localEvent.index, '0' :: 'x' :: localHash, '0' :: 'x' :: remoteHash, now, false, none⟩
    else none

def detectConflicts (now : ℕ) (localEvents remoteEvents : List EventRecord) : List ConflictRecord :=
  localEvents.filterMap (detectConflict now remoteEvents)

/-- `createCheckpoint` -/
def createCheckpoint (O : SyncOptions) (A : Answers) (eventIndex : ℕ) (merkleRoot : Text) (chainId : ℕ)
    (s : Synchronizer) : Except Text Unit × Synchronizer :=
  (withRetry O A.submitRecordCheckpoint, { s with
    submissions := s.submissions ++ [⟨chainId, eventIndex, merkleRoot, A.now / 1000⟩] })

/-- `syncEventRange` -/
def syncEventRange (H : Host) (O : SyncOptions) (A : Answers) (fromIndex toIndex targetChainId : ℕ)
    (s : Synchronizer) : SyncResult × Synchronizer :=
  let failure (conflictCount : ℕ) (checkpointHash err : Text) : SyncResult :=
    ⟨false, targetChainId, fromIndex, toIndex, 0, conflictCount, checkpointHash, [err]⟩
  if fromIndex > toIndex then (failure 0 zeroRoot "fromIndex must be <= toIndex".toList, s)
  else match fetchEvents O A fromIndex toIndex with
  | .error err => (failure 0 zeroRoot err, s)
  | .ok [] => (⟨true, targetChainId, fromIndex, toIndex, 0, 0, zeroRoot, []⟩, s)
  | .ok (first :: rest) =>
    let allEvents := first :: rest
    let checkpointHash := computeMerkleRoot H (allEvents.map (·.eventHash))
    match A.fetchRemoteEvents with
    | .error err => (failure 0 checkpointHash err, s)
    | .ok existing =>
      let newConflicts := detectConflicts A.now allEvents existing
      let conflictCount := newConflicts.length
      let s := { s with conflicts := s.conflicts ++ newConflicts }
      match withRetry O A.submitSyncEventsToChain with
      | .error err => (failure conflictCount checkpointHash err, s)
      | .ok () =>
        match createCheckpoint O A toIndex checkpointHash targetChainId s with
        | (.error err, s) => (failure conflictCount checkpointHash err, s)
        | (.ok (), s) =>
          let syncedCount := allEvents.length
          let status : CheckpointStatus := {
            chainId := targetChainId
            lastSyncedIndex := toIndex
            lastSyncTimestamp := A.now
            totalSynced := syncedCount
            pendingConflicts := conflictCount
            merkleRoot := checkpointHash
            latestCheckpoint := some ⟨toIndex, checkpointHash, A.now⟩ }
          (⟨true, targetChainId, fromIndex, toIndex, syncedCount, conflictCount, checkpointHash, []⟩,
            { s with checkpoints := Function.update s.checkpoints targetChainId (some status) })

/-- The unresolved conflicts with the chain and the event of another. -/
def sameConflict (conflict c : ConflictRecord) : Bool :=
  c.chainId = conflict.chainId && c.eventIndex = conflict.eventIndex && !c.resolved

/-- The hash that a strategy accepts. -/
def Strategy.canonicalHash (conflict : ConflictRecord) : Strategy → Text
  | canonical => conflict.localHash
  | remote => conflict.remoteHash

def ConflictRecord.settle (canonicalHash : Text) (c : ConflictRecord) : ConflictRecord :=
  { c with resolved := true, resolvedHash := some canonicalHash }

/-- `resolveConflict`; the attempts of its submission are `answers`. -/
def resolveConflict (O : SyncOptions) (answers : ℕ → Except Text Unit) (conflict : ConflictRecord)
    (strategy : Strategy) (s : Synchronizer) : Except Text Unit × Synchronizer :=
  match withRetry O answers with
  | .error err => (.error err, s)
  | .ok () =>
    match s.conflicts.findIdx? (sameConflict conflict) with
    | none => (.ok (), s)
    | some idx => (.ok (), { s with
        conflicts := s.conflicts.modify idx (ConflictRecord.settle (strategy.canonicalHash conflict)) })

/-- `getPendingConflicts` -/
def getPendingConflicts (chainId : ℕ) (s : Synchronizer) : List ConflictRecord :=
  s.conflicts.filter fun c => c.chainId = chainId && !c.resolved

/-! ## Operations -/

inductive Op where
  | syncEventRange (O : SyncOptions) (A : Answers) (fromIndex toIndex targetChainId : ℕ)
  | resolveConflict (O : SyncOptions) (answers : ℕ → Except Text Unit) (conflict : ConflictRecord)
      (strategy : Strategy)

/-- What is left after an operation. -/
def exec (H : Host) : Op → Synchronizer → Synchronizer
  | .syncEventRange O A i j c, s => (syncEventRange H O A i j c s).2
  | .resolveConflict O answers r st, s => (resolveConflict O answers r st s).2

/-- One step. -/
def Steps (H : Host) (s : Synchronizer) (o : Op) (s' : Synchronizer) : Prop := exec H o s = s'

/-! ## Results -/

section
variable {α : Type} {O : SyncOptions} {A : Answers} {fn : ℕ → Except Text α} {a : α}

theorem retryFrom_ok {i n : ℕ} (h : retryFrom fn i n = .ok a) : ∃ k, fn k = .ok a := by
  induction n generalizing i with
  | zero => exact ⟨i, h⟩
  | succ n ih =>
    rw [retryFrom] at h
    cases hi : fn i with
    | ok b =>
      rw [hi] at h
      exact ⟨i, hi.trans h⟩
    | error e =>
      rw [hi] at h
      exact ih h

/-- What is returned is what one of the attempts has returned. -/
theorem withRetry_ok (h : withRetry O fn = .ok a) : ∃ k, fn k = .ok a := retryFrom_ok h

end

/-- The first unresolved conflict with the chain and the event is resolved. -/
theorem resolveConflict_ok {O : SyncOptions} {answers : ℕ → Except Text Unit} {r : ConflictRecord}
    {st : Strategy}
    {s s' : Synchronizer} {idx : ℕ} (h : resolveConflict O answers r st s = (.ok (), s'))
    (hidx : s.conflicts.findIdx? (sameConflict r) = some idx) :
    s'.conflicts = s.conflicts.modify idx (ConflictRecord.settle (st.canonicalHash r)) := by
  rw [resolveConflict] at h
  cases hretry : withRetry O answers with
  | error e => rw [hretry] at h; cases h
  | ok u =>
    rw [hretry] at h
    simp only [hidx] at h
    obtain ⟨-, rfl⟩ := Prod.mk.inj h
    rfl

/-- A synchronisation that succeeds: it has fetched events and compared them, and has passed on their root,
    unless there were none. -/
theorem syncEventRange_success {H : Host} {O : SyncOptions} {A : Answers} {i j c : ℕ} {s s' : Synchronizer}
    {r : SyncResult} (h : syncEventRange H O A i j c s = (r, s')) (hr : r.success = true) :
    i ≤ j ∧ ∃ events, fetchEvents O A i j = .ok events ∧
      (events = [] ∧ r.conflictCount = 0 ∧ s' = s ∨
        events ≠ [] ∧ ∃ existing, A.fetchRemoteEvents = .ok existing ∧
          r.conflictCount = (detectConflicts A.now events existing).length ∧
          s'.conflicts = s.conflicts ++ detectConflicts A.now events existing ∧
          s'.submissions = s.submissions ++
            [⟨c, j, computeMerkleRoot H (events.map (·.eventHash)), A.now / 1000⟩]) := by
  have failed : ∀ {n : ℕ} {t : Text} {e : List Text} {s₁ : Synchronizer},
      (SyncResult.mk false c i j 0 n t e, s₁) = (r, s') → False := by
    rintro n t e s₁ heq
    obtain ⟨rfl, -⟩ := Prod.mk.inj heq
    cases hr
  rw [syncEventRange] at h
  split_ifs at h with hij
  · exact (failed h).elim
  refine ⟨Nat.le_of_not_lt hij, ?_⟩
  cases hfetch : fetchEvents O A i j with
  | error err => rw [hfetch] at h; exact (failed h).elim
  | ok events =>
    rw [hfetch] at h
    refine ⟨events, rfl, ?_⟩
    cases events with
    | nil =>
      obtain ⟨rfl, rfl⟩ := Prod.mk.inj h
      exact .inl ⟨rfl, rfl, rfl⟩
    | cons first rest =>
      refine .inr ⟨List.cons_ne_nil _ _, ?_⟩
      cases hremote : A.fetchRemoteEvents with
      | error err => rw [hremote] at h; exact (failed h).elim
      | ok existing =>
        refine ⟨existing, rfl, ?_⟩
        rw [hremote] at h
        simp only [createCheckpoint] at h
        cases hsubmit : withRetry O A.submitSyncEventsToChain with
        | error err => rw [hsubmit] at h; exact (failed h).elim
        | ok u =>
          rw [hsubmit] at h
          cases hrecord : withRetry O A.submitRecordCheckpoint with
          | error err => rw [hrecord] at h; exact (failed h).elim
          | ok u' =>
            rw [hrecord] at h
            obtain ⟨rfl, rfl⟩ := Prod.mk.inj h
            exact ⟨rfl, rfl, rfl⟩

end CrossChainSynchronizer
