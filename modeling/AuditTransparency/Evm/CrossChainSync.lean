/-
  CrossChainSync — the mirror of an event stream on an EVM chain (`bridge/evm/CrossChainSync.sol`).

  Relayers record checkpoints and register hashes of events; a mismatch is recorded as a
  conflict, which the owner resolves.

  The mappings of the contract are keyed by chain.  `Chain` is the part of them that belongs
  to one chain, and `Effect` says what a call does to it: it touches no other chain.
-/
import AuditTransparency.Evm.Tx
import Mathlib.Algebra.Notation.Defs
import Mathlib.Logic.Function.Basic

namespace CrossChainSync

open Solidity
open Solidity.Tx

/-! ## Data -/

/-- A Merkle root for a specific event index; `bytes32` is the type `W`. -/
structure Checkpoint (W : Type) where
  eventIndex : UInt32
  merkleRoot : W
  timestamp : UInt64
  recordedBy : Address
  /-- `exists` -/
  recorded : Bool
  deriving DecidableEq

/-- The synchronisation status of a chain. -/
structure SyncStatus where
  lastSyncedIndex : UInt32 := 0
  lastSyncTimestamp : UInt64 := 0
  totalSynced : ℕ := 0
  pendingConflicts : ℕ := 0
  active : Bool := false
  deriving DecidableEq

structure ConflictRecord (W : Type) where
  eventIndex : UInt32
  localHash : W
  remoteHash : W
  detectedAt : UInt64
  resolved : Bool
  resolvedHash : W
  deriving DecidableEq

inductive Log (W : Type) where
  | syncInitiated (chainId fromIndex toIndex : UInt32) (relayer : Address) (timestamp : ℕ)
  | checkpointRecorded (chainId eventIndex : UInt32) (merkleRoot : W) (relayer : Address) (timestamp : UInt64)
  | conflictDetected (chainId eventIndex : UInt32) (localHash remoteHash : W) (timestamp : ℕ)
  | conflictResolved (chainId eventIndex : UInt32) (canonicalHash : W) (resolver : Address) (timestamp : ℕ)
  | relayerUpdated (relayer : Address) (authorised : Bool)
  deriving DecidableEq

section
variable {W : Type} [Zero W]

def Checkpoint.none : Checkpoint W := ⟨0, 0, 0, 0, false⟩

def ConflictRecord.none : ConflictRecord W := ⟨0, 0, 0, 0, false, 0⟩

end

/-- The storage, and the logs emitted. -/
structure Storage (W : Type) [Zero W] where
  owner : Address := 0
  paused : Bool := false
  authorisedRelayers : Address → Bool := fun _ => false
  latestCheckpoints : UInt32 → Checkpoint W := fun _ => .none
  checkpointHistory : UInt32 → UInt32 → Checkpoint W := fun _ _ => .none
  syncStatus : UInt32 → SyncStatus := fun _ => {}
  conflicts : UInt32 → ℕ → ConflictRecord W := fun _ _ => .none
  conflictCount : UInt32 → ℕ := fun _ => 0
  eventHashes : UInt32 → UInt32 → W := fun _ _ => 0
  logs : List (Log W) := []

inductive Error where
  | notOwner
  | notRelayer
  | contractPaused
  | invalidRange
  | conflictNotPending
  | invalidChainId
  | batchTooLarge
  deriving DecidableEq

variable {W : Type} [Zero W]

abbrev Fn (W : Type) [Zero W] : Type → Type := Tx Error (Storage W)

def MAX_SYNC_BATCH_SIZE : ℕ := 1000

/-! ## Functions -/

/-- `onlyOwner` -/
def onlyOwner : Fn W Unit := do revertIf ((← getMsg).sender ≠ (← get).owner) .notOwner

/-- `onlyRelayer` -/
def onlyRelayer : Fn W Unit := do
  let sender := (← getMsg).sender
  revertIf ((← get).authorisedRelayers sender = false ∧ sender ≠ (← get).owner) .notRelayer

/-- `whenNotPaused` -/
def whenNotPaused : Fn W Unit := do revertIf ((← get).paused = true) .contractPaused

def emit (e : Log W) : Fn W Unit := modify fun s => { s with logs := s.logs ++ [e] }

/-- The write of a field of a chain's status. -/
def setStatus (chainId : UInt32) (f : SyncStatus → SyncStatus) : Fn W Unit :=
  modify fun s => { s with
    syncStatus := Function.update s.syncStatus chainId (f (s.syncStatus chainId)) }

/-- `constructor` -/
def construct (initialRelayers : List Address) : Fn W Unit := do
  let owner := (← getMsg).sender
  modify fun s => { s with owner }
  loop (fun _ a => do
    modify fun s => { s with authorisedRelayers := Function.update s.authorisedRelayers a true }
    emit (.relayerUpdated a true)) () initialRelayers

/-- `_recordConflict` -/
def recordConflict (chainId eventIndex : UInt32) (localHash remoteHash : W) : Fn W Unit := do
  let now := (← getMsg).timestamp
  let cid := (← get).conflictCount chainId
  let count ← addChecked 256 cid 1
  modify fun s => { s with conflictCount := Function.update s.conflictCount chainId count }
  let record := ⟨eventIndex, localHash, remoteHash, UInt64.ofNat now, false, 0⟩
  modify fun s => { s with
    conflicts := Function.update s.conflicts chainId (Function.update (s.conflicts chainId) cid record) }
  let pending ← addChecked 32 ((← get).syncStatus chainId).pendingConflicts 1
  setStatus chainId fun status => { status with pendingConflicts := pending }
  emit (.conflictDetected chainId eventIndex localHash remoteHash now)

/-- `syncEventsToChain` -/
def syncEventsToChain (chainId fromIndex toIndex : UInt32) : Fn W Unit := do
  onlyRelayer
  whenNotPaused
  revertIf (chainId = 0) .invalidChainId
  revertIf (fromIndex > toIndex) .invalidRange
  let size ← addChecked 32 (toIndex - fromIndex).toNat 1
  revertIf (size > MAX_SYNC_BATCH_SIZE) .batchTooLarge
  setStatus chainId fun status => { status with active := true }
  let msg ← getMsg
  emit (.syncInitiated chainId fromIndex toIndex msg.sender msg.timestamp)

/-- The part of `recordCheckpoint` about the status. -/
def updateSyncStatus (chainId eventIndex : UInt32) : Fn W Unit := do
  let status := (← get).syncStatus chainId
  doIf (eventIndex > status.lastSyncedIndex) do
    let newTotal := (eventIndex - status.lastSyncedIndex).toNat
    let now := (← getMsg).timestamp
    let total ← addChecked 256 status.totalSynced newTotal
    setStatus chainId fun status => { status with
      lastSyncedIndex := eventIndex
      lastSyncTimestamp := UInt64.ofNat now
      totalSynced := total }

/-- What `recordCheckpoint` writes. -/
def storeCheckpoint (chainId : UInt32) (cp : Checkpoint W) : Fn W Unit := do
  modify fun s => { s with
    checkpointHistory := Function.update s.checkpointHistory chainId
      (Function.update (s.checkpointHistory chainId) cp.eventIndex cp) }
  let latest := (← get).latestCheckpoints chainId
  doIf (cp.eventIndex ≥ latest.eventIndex ∨ latest.recorded = false) do
    modify fun s => { s with latestCheckpoints := Function.update s.latestCheckpoints chainId cp }
  updateSyncStatus chainId cp.eventIndex

/-- `recordCheckpoint` -/
def recordCheckpoint [DecidableEq W] (chainId eventIndex : UInt32) (merkleRoot : W) (timestamp : UInt64) :
    Fn W Unit := do
  onlyRelayer
  whenNotPaused
  revertIf (chainId = 0) .invalidChainId
  let existing := (← get).checkpointHistory chainId eventIndex
  doIf (existing.recorded = true ∧ existing.merkleRoot ≠ merkleRoot) do
    recordConflict chainId eventIndex existing.merkleRoot merkleRoot
  let sender := (← getMsg).sender
  storeCheckpoint chainId ⟨eventIndex, merkleRoot, timestamp, sender, true⟩
  emit (.checkpointRecorded chainId eventIndex merkleRoot sender timestamp)

/-- `registerEventHash` -/
def registerEventHash [DecidableEq W] (chainId eventIndex : UInt32) (reportedHash : W) : Fn W Unit := do
  onlyRelayer
  whenNotPaused
  revertIf (chainId = 0) .invalidChainId
  let stored := (← get).eventHashes chainId eventIndex
  if stored ≠ 0 ∧ stored ≠ reportedHash then
    recordConflict chainId eventIndex stored reportedHash
  else
    modify fun s => { s with
      eventHashes := Function.update s.eventHashes chainId
        (Function.update (s.eventHashes chainId) eventIndex reportedHash) }

/-- The first unresolved conflict of an event, if any. -/
def findPending (s : Storage W) (chainId eventIndex : UInt32) : Option ℕ :=
  (List.range (s.conflictCount chainId)).find? fun i =>
    let cr := s.conflicts chainId i
    cr.eventIndex = eventIndex && !cr.resolved

/-- `resolveSyncConflict` -/
def resolveSyncConflict (chainId eventIndex : UInt32) (canonicalHash : W) : Fn W Unit := do
  onlyOwner
  revertIf (chainId = 0) .invalidChainId
  match findPending (← get) chainId eventIndex with
  | none => revert .conflictNotPending
  | some i =>
    modify fun s => { s with
      conflicts := Function.update s.conflicts chainId (Function.update (s.conflicts chainId) i
        { s.conflicts chainId i with resolved := true, resolvedHash := canonicalHash }) }
  modify fun s => { s with
    eventHashes := Function.update s.eventHashes chainId
      (Function.update (s.eventHashes chainId) eventIndex canonicalHash) }
  doIf (((← get).syncStatus chainId).pendingConflicts > 0) do
    setStatus chainId fun status => { status with pendingConflicts := status.pendingConflicts - 1 }
  let msg ← getMsg
  emit (.conflictResolved chainId eventIndex canonicalHash msg.sender msg.timestamp)

/-- `setRelayer` -/
def setRelayer (relayer : Address) (authorised : Bool) : Fn W Unit := do
  onlyOwner
  modify fun s => { s with authorisedRelayers := Function.update s.authorisedRelayers relayer authorised }
  emit (.relayerUpdated relayer authorised)

/-- `setPaused` -/
def setPaused (paused : Bool) : Fn W Unit := do
  onlyOwner
  modify fun s => { s with paused }

/-! ## Operations -/

inductive Op (W : Type) where
  | syncEventsToChain (chainId fromIndex toIndex : UInt32)
  | recordCheckpoint (chainId eventIndex : UInt32) (merkleRoot : W) (timestamp : UInt64)
  | registerEventHash (chainId eventIndex : UInt32) (reportedHash : W)
  | resolveSyncConflict (chainId eventIndex : UInt32) (canonicalHash : W)
  | setRelayer (relayer : Address) (authorised : Bool)
  | setPaused (paused : Bool)
  deriving DecidableEq

/-- Runs an operation. -/
def exec [DecidableEq W] : Op W → Fn W Unit
  | .syncEventsToChain c i j => syncEventsToChain c i j
  | .recordCheckpoint c i r t => recordCheckpoint c i r t
  | .registerEventHash c i h => registerEventHash c i h
  | .resolveSyncConflict c i h => resolveSyncConflict c i h
  | .setRelayer a b => setRelayer a b
  | .setPaused b => setPaused b

/-! ## Chains -/

/-- What the contract keeps of one chain. -/
structure Chain (W : Type) where
  latest : Checkpoint W
  history : UInt32 → Checkpoint W
  status : SyncStatus
  conflicts : ℕ → ConflictRecord W
  conflictCount : ℕ
  eventHashes : UInt32 → W

def chainOf (s : Storage W) (c : UInt32) : Chain W :=
  ⟨s.latestCheckpoints c, s.checkpointHistory c, s.syncStatus c, s.conflicts c, s.conflictCount c,
    s.eventHashes c⟩

namespace Chain

/-- A conflict is raised. -/
def raise (x : Chain W) (now : ℕ) (i : UInt32) (l r : W) : Chain W := { x with
  conflictCount := x.conflictCount + 1
  conflicts := Function.update x.conflicts x.conflictCount ⟨i, l, r, UInt64.ofNat now, false, 0⟩
  status := { x.status with pendingConflicts := x.status.pendingConflicts + 1 } }

/-- A checkpoint is stored. -/
def store (x : Chain W) (now : ℕ) (cp : Checkpoint W) : Chain W := { x with
  history := Function.update x.history cp.eventIndex cp
  latest := if cp.eventIndex ≥ x.latest.eventIndex ∨ x.latest.recorded = false then cp else x.latest
  status := if cp.eventIndex > x.status.lastSyncedIndex then { x.status with
      lastSyncedIndex := cp.eventIndex
      lastSyncTimestamp := UInt64.ofNat now
      totalSynced := x.status.totalSynced + (cp.eventIndex - x.status.lastSyncedIndex).toNat }
    else x.status }

/-- The root contradicts the one recorded for the event. -/
def Contradicts (x : Chain W) (i : UInt32) (r : W) : Prop :=
  (x.history i).recorded = true ∧ (x.history i).merkleRoot ≠ r

instance [DecidableEq W] (x : Chain W) (i : UInt32) (r : W) : Decidable (x.Contradicts i r) :=
  inferInstanceAs (Decidable (_ ∧ _))

def checkpoint [DecidableEq W] (x : Chain W) (now : ℕ) (cp : Checkpoint W) : Chain W :=
  (if x.Contradicts cp.eventIndex cp.merkleRoot then
    x.raise now cp.eventIndex (x.history cp.eventIndex).merkleRoot cp.merkleRoot else x).store now cp

/-- The hash contradicts the one registered for the event. -/
def Disputes (x : Chain W) (i : UInt32) (h : W) : Prop := x.eventHashes i ≠ 0 ∧ x.eventHashes i ≠ h

instance [DecidableEq W] (x : Chain W) (i : UInt32) (h : W) : Decidable (x.Disputes i h) :=
  inferInstanceAs (Decidable (_ ∧ _))

def register [DecidableEq W] (x : Chain W) (now : ℕ) (i : UInt32) (h : W) : Chain W :=
  if x.Disputes i h then x.raise now i (x.eventHashes i) h
  else { x with eventHashes := Function.update x.eventHashes i h }

/-- Conflict `k` is resolved. -/
def resolve (x : Chain W) (k : ℕ) (i : UInt32) (h : W) : Chain W := { x with
  conflicts := Function.update x.conflicts k { x.conflicts k with resolved := true, resolvedHash := h }
  eventHashes := Function.update x.eventHashes i h
  status := { x.status with pendingConflicts := x.status.pendingConflicts - 1 } }

def activate (x : Chain W) : Chain W := { x with status := { x.status with active := true } }

end Chain

/-- What a call does to the chains. -/
inductive Effect [DecidableEq W] (msg : Msg) (s : Storage W) : Op W → Storage W → Prop where
  | initiated {c i j s'} : s'.owner = s.owner →
      chainOf s' = Function.update (chainOf s) c (chainOf s c).activate →
      Effect msg s (.syncEventsToChain c i j) s'
  | recorded {c i r t s'} : c ≠ 0 → s'.owner = s.owner → chainOf s' =
        Function.update (chainOf s) c ((chainOf s c).checkpoint msg.timestamp ⟨i, r, t, msg.sender, true⟩) →
      Effect msg s (.recordCheckpoint c i r t) s'
  | registered {c i h s'} : s'.owner = s.owner →
      chainOf s' = Function.update (chainOf s) c ((chainOf s c).register msg.timestamp i h) →
      Effect msg s (.registerEventHash c i h) s'
  | resolved {c i h k s'} : msg.sender = s.owner → s'.owner = s.owner → findPending s c i = some k →
      chainOf s' = Function.update (chainOf s) c ((chainOf s c).resolve k i h) →
      Effect msg s (.resolveSyncConflict c i h) s'
  | relayer {a b s'} : s'.owner = s.owner → chainOf s' = chainOf s → Effect msg s (.setRelayer a b) s'
  | paused {b s'} : s'.owner = s.owner → chainOf s' = chainOf s → Effect msg s (.setPaused b) s'

section
variable {msg : Msg} {s s' : Storage W} {c i : UInt32} {l r : W}

/-- Two storages that agree on every chain but one. -/
theorem chainOf_update {x : Chain W} (hc : chainOf s' c = x) (hne : ∀ d, d ≠ c → chainOf s' d = chainOf s d) :
    chainOf s' = Function.update (chainOf s) c x := by
  funext d
  rcases eq_or_ne d c with rfl | hd
  · rw [Function.update_self, hc]
  · rw [Function.update_of_ne hd, hne d hd]

theorem post_recordConflict : Post (recordConflict c i l r) (fun _ s' => s'.owner = s.owner ∧
    chainOf s' = Function.update (chainOf s) c ((chainOf s c).raise msg.timestamp i l r)) msg s := by
  simp only [recordConflict, setStatus, emit, post_bind, post_getMsg, post_get, post_addChecked, post_modify]
  intro _ _
  refine ⟨trivial, chainOf_update ?_ ?_⟩
  · simp [chainOf, Chain.raise]
  · intro d hd
    simp [chainOf, hd]

theorem post_storeCheckpoint {cp : Checkpoint W} : Post (storeCheckpoint c cp) (fun _ s' =>
    s'.owner = s.owner ∧ chainOf s' = Function.update (chainOf s) c ((chainOf s c).store msg.timestamp cp))
    msg s := by
  simp only [storeCheckpoint, updateSyncStatus, setStatus, post_bind, post_getMsg, post_get, post_addChecked,
    post_modify, post_doIf]
  refine ⟨fun hl => ⟨fun hi _ => ?_, fun hi => ?_⟩, fun hl => ⟨fun hi _ => ?_, fun hi => ?_⟩⟩ <;>
    refine ⟨trivial, chainOf_update ?_ ?_⟩
  all_goals first
    | intro d hd
      simp [chainOf, hd]
    | simp only [chainOf, Chain.store, Function.update_self, hl, hi, if_true, if_false]

theorem post_recordCheckpoint [DecidableEq W] {t : UInt64} :
    Post (recordCheckpoint c i r t) (fun _ s' => Effect msg s (.recordCheckpoint c i r t) s') msg s := by
  simp only [recordCheckpoint, onlyRelayer, whenNotPaused, emit, post_bind, post_getMsg, post_get,
    post_revertIf, post_doIf, post_modify]
  intro _ _ hc
  constructor
  · intro hcon
    change (chainOf s c).Contradicts i r at hcon
    refine post_recordConflict.mono ?_
    rintro - s₁ ⟨ho₁, h₁⟩
    refine post_storeCheckpoint.mono ?_
    rintro - s₂ ⟨ho₂, h₂⟩
    refine .recorded hc (ho₂.trans ho₁) (Eq.trans h₂ ?_)
    rw [h₁, Function.update_self, Function.update_idem, Chain.checkpoint, if_pos hcon]
    rfl
  · intro hcon
    change ¬(chainOf s c).Contradicts i r at hcon
    refine post_storeCheckpoint.mono ?_
    rintro - s₂ ⟨ho₂, h₂⟩
    refine .recorded hc ho₂ (Eq.trans h₂ ?_)
    rw [Chain.checkpoint, if_neg hcon]

theorem post_registerEventHash [DecidableEq W] {h : W} :
    Post (registerEventHash c i h) (fun _ s' => Effect msg s (.registerEventHash c i h) s') msg s := by
  simp only [registerEventHash, onlyRelayer, whenNotPaused, post_bind, post_getMsg, post_get,
    post_revertIf, post_ite, post_modify]
  intro _ _ _
  constructor
  · intro hdis
    change (chainOf s c).Disputes i h at hdis
    refine post_recordConflict.mono ?_
    rintro - s₁ ⟨ho, h₁⟩
    refine .registered ho (h₁.trans ?_)
    rw [Chain.register, if_pos hdis]
    rfl
  · intro hdis
    change ¬(chainOf s c).Disputes i h at hdis
    refine .registered rfl (chainOf_update ?_ ?_)
    · rw [Chain.register, if_neg hdis]
      simp [chainOf]
    · intro d hd
      simp [chainOf, hd]

theorem post_resolveSyncConflict [DecidableEq W] {h : W} :
    Post (resolveSyncConflict c i h) (fun _ s' => Effect msg s (.resolveSyncConflict c i h) s') msg s := by
  simp only [resolveSyncConflict, onlyOwner, post_bind, post_getMsg, post_get, post_revertIf, not_not]
  intro hsender _
  cases hk : findPending s c i with
  | none => simp
  | some k =>
    simp only [post_bind, post_modify, post_get, post_doIf, setStatus, emit, post_getMsg]
    constructor
    · intro _
      refine .resolved hsender rfl hk (chainOf_update ?_ ?_)
      · simp [chainOf, Chain.resolve]
      · intro d hd
        simp [chainOf, hd]
    · intro hzero
      refine .resolved hsender rfl hk (chainOf_update ?_ ?_)
      · have hpending : (s.syncStatus c).pendingConflicts - 1 = (s.syncStatus c).pendingConflicts := by omega
        simp [chainOf, Chain.resolve, hpending]
      · intro d hd
        simp [chainOf, hd]

end

theorem effect_of_step [DecidableEq W] {s s' : Storage W} {p : Msg × Op W} (hs : Steps exec s p s') :
    Effect p.1 s p.2 s' := by
  obtain ⟨msg, o⟩ := p
  obtain ⟨r, hr⟩ := hs
  refine Post.of_run (Q := fun _ s' => Effect msg s o s') ?_ hr
  cases o with
  | syncEventsToChain c i j =>
    simp only [exec, syncEventsToChain, onlyRelayer, whenNotPaused, setStatus, emit, post_bind, post_getMsg,
      post_get, post_revertIf, post_addChecked, post_modify]
    intro _ _ _ _ _ _
    refine .initiated rfl (chainOf_update ?_ ?_)
    · simp [chainOf, Chain.activate]
    · intro d hd
      simp [chainOf, hd]
  | recordCheckpoint c i r t => exact post_recordCheckpoint
  | registerEventHash c i h => exact post_registerEventHash
  | resolveSyncConflict c i h => exact post_resolveSyncConflict
  | setRelayer a b =>
    simp only [exec, setRelayer, onlyOwner, emit, post_bind, post_getMsg, post_get, post_revertIf,
      post_modify]
    exact fun _ => .relayer rfl rfl
  | setPaused b =>
    simp only [exec, setPaused, onlyOwner, post_bind, post_getMsg, post_get, post_revertIf, post_modify]
    exact fun _ => .paused rfl rfl

/-- A new contract knows of nothing. -/
theorem chainOf_construct {l : List Address} {msg : Msg} {s₀ : Storage W}
    (h : (construct l).run msg {} = .ok ((), s₀)) : chainOf s₀ = chainOf {} := by
  refine Post.of_run (m := construct l) (Q := fun _ s => chainOf s = chainOf {}) ?_ h
  simp only [construct, post_bind, post_getMsg, post_modify]
  refine post_loop_invariant ?_ rfl
  intro a _ s hs
  simp only [emit, post_bind, post_modify]
  exact hs

end CrossChainSync
