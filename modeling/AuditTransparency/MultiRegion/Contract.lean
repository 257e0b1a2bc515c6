/-
  MultiRegion — regions of a cluster and failovers between them (`src/multi_region.rs`).

  Regions are registered, report their health, and are made the primary one by a failover that
  names the old primary and carries a fencing token.  All entries are in the persistent store.
  `BytesN<32>` is the type `D` of digests.
-/
import AuditTransparency.Soroban.Script

namespace MultiRegion

open Soroban
open Soroban.Call

/-! ## Data -/

inductive MultiRegionError where
  | regionAlreadyExists
  | regionNotFound
  | unauthorizedOperator
  | invalidTopologyTransition
  | staleFencingToken
  | targetRegionUnhealthy
  | stateRootMismatch
  | failoverAlreadyInProgress
  deriving DecidableEq

inductive RegionTopology where
  | activeActive
  | activePassive
  deriving DecidableEq

inductive RegionHealthStatus where
  | healthy
  | degraded
  | unreachable
  | draining
  | offline
  deriving DecidableEq

structure RegionNode (D : Type) where
  regionId : Symbol
  endpointUrlHash : D
  isPrimary : Bool
  healthStatus : RegionHealthStatus
  lastHeartbeatTimestamp : ℕ
  processedLedgerSeq : ℕ
  stateRootHash : D
  trafficWeight : ℕ
  deriving DecidableEq

structure CrossRegionSyncRecord (D : Type) where
  sourceRegion : Symbol
  targetRegion : Symbol
  fromSeq : ℕ
  toSeq : ℕ
  eventsSynced : ℕ
  syncTimestamp : ℕ
  stateRootProof : D
  replicationLagMs : ℕ
  deriving DecidableEq

structure FailoverEvent (D : Type) where
  failoverId : D
  oldPrimary : Symbol
  newPrimary : Symbol
  triggerReason : Symbol
  initiatedAt : ℕ
  completedAt : ℕ
  consistencyVerified : Bool
  fencingToken : ℕ
  deriving DecidableEq

structure MultiRegionTopologyConfig where
  topologyMode : RegionTopology
  primaryRegion : Symbol
  replicationQuorum : ℕ
  activeRegionsCount : ℕ
  currentFencingToken : ℕ
  deriving DecidableEq

/-! ## Storage keys -/

inductive MultiRegionStorageKey where
  | region
  | registeredRegionsList
  | syncRecord
  | failover
  | latestFailover
  | topologyConfig
  deriving DecidableEq

/-- The argument of a key. -/
@[reducible] def MultiRegionStorageKey.Key (D : Type) : MultiRegionStorageKey → Type
  | region => Symbol
  | syncRecord => Symbol × Symbol
  | failover => D
  | registeredRegionsList | latestFailover | topologyConfig => Unit

/-- The value stored under a key. -/
@[reducible] def MultiRegionStorageKey.Val (D : Type) : MultiRegionStorageKey → Type
  | region => RegionNode D
  | registeredRegionsList => List Symbol
  | syncRecord => CrossRegionSyncRecord D
  | failover | latestFailover => FailoverEvent D
  | topologyConfig => MultiRegionTopologyConfig

instance MultiRegionStorageKey.decEqKey {D : Type} [DecidableEq D] :
    (f : MultiRegionStorageKey) → DecidableEq (f.Key D)
  | region => inferInstanceAs (DecidableEq String)
  | syncRecord => inferInstanceAs (DecidableEq (String × String))
  | failover => inferInstanceAs (DecidableEq D)
  | registeredRegionsList | latestFailover | topologyConfig => inferInstanceAs (DecidableEq Unit)

/-- The storage of the module; it publishes nothing. -/
abbrev layout (D : Type) [DecidableEq D] : Layout where
  Field := MultiRegionStorageKey
  Key := MultiRegionStorageKey.Key D
  Val := MultiRegionStorageKey.Val D
  Note := Empty

abbrev State (D : Type) [DecidableEq D] := Ledger (layout D)

abbrev Fn (D : Type) [DecidableEq D] : Type → Type := Call MultiRegionError (layout D)

variable {D : Type} [DecidableEq D]

/-- `env.storage().persistent()` -/
abbrev get (f : MultiRegionStorageKey) (k : f.Key D) : Fn D (Option (f.Val D)) := Call.loadPers (layout D) f k
abbrev set (f : MultiRegionStorageKey) (k : f.Key D) (v : f.Val D) : Fn D Unit :=
    Call.storePers (layout D) f k v

/-! ## Functions -/

/-- `register_region`; `zeros` is `BytesN::from_array(&[0; 32])`. -/
def registerRegion (zeros : D) (admin : Address) (regionId : Symbol) (endpointUrlHash : D) (isPrimary : Bool)
    (trafficWeight : ℕ) : Fn D (RegionNode D) := do
  requireAuth admin
  rejectIf (← get .region regionId).isSome .regionAlreadyExists
  let node : RegionNode D := {
    regionId, endpointUrlHash, isPrimary
    healthStatus := .healthy
    lastHeartbeatTimestamp := (← getEnv).timestamp
    processedLedgerSeq := 0
    stateRootHash := zeros
    trafficWeight }
  set .region regionId node
  set .registeredRegionsList () ((← get .registeredRegionsList ()).getD [] ++ [regionId])
  return node

/-- `heartbeat_region` -/
def heartbeatRegion (operator : Address) (regionId : Symbol) (processedLedgerSeq : ℕ) (stateRootHash : D)
    (healthStatus : RegionHealthStatus) : Fn D (RegionNode D) := do
  requireAuth operator
  let node ← unwrapOr (← get .region regionId) .regionNotFound
  let lastHeartbeatTimestamp := (← getEnv).timestamp
  let node := { node with lastHeartbeatTimestamp, processedLedgerSeq, stateRootHash, healthStatus }
  set .region regionId node
  return node

/-- `record_cross_region_sync` -/
def recordCrossRegionSync (operator : Address) (record : CrossRegionSyncRecord D) : Fn D Unit := do
  requireAuth operator
  set .syncRecord (record.sourceRegion, record.targetRegion) record

/-- `initiate_failover` -/
def initiateFailover (operator : Address) (failoverId : D) (oldPrimary newPrimary triggerReason : Symbol)
    (fencingToken : ℕ) : Fn D (FailoverEvent D) := do
  requireAuth operator
  let newNode ← unwrapOr (← get .region newPrimary) .regionNotFound
  rejectIf (newNode.healthStatus ≠ .healthy ∧ newNode.healthStatus ≠ .degraded) .targetRegionUnhealthy
  ifSome (← get .region oldPrimary) fun oldNode =>
    set .region oldPrimary { oldNode with isPrimary := false, healthStatus := .draining }
  set .region newPrimary { newNode with isPrimary := true }
  let now := (← getEnv).timestamp
  let event : FailoverEvent D := {
    failoverId, oldPrimary, newPrimary, triggerReason
    initiatedAt := now
    completedAt := now
    consistencyVerified := true
    fencingToken }
  set .failover failoverId event
  set .latestFailover () event
  let config := (← get .topologyConfig ()).getD {
    topologyMode := .activePassive
    primaryRegion := newPrimary
    replicationQuorum := 2
    activeRegionsCount := 2
    currentFencingToken := 0 }
  set .topologyConfig () { config with primaryRegion := newPrimary, currentFencingToken := fencingToken }
  return event

/-! ## Calls -/

inductive Op (D : Type) where
  | registerRegion (admin : Address) (regionId : Symbol) (endpointUrlHash : D) (isPrimary : Bool)
      (trafficWeight : ℕ)
  | heartbeatRegion (operator : Address) (regionId : Symbol) (processedLedgerSeq : ℕ) (stateRootHash : D)
      (healthStatus : RegionHealthStatus)
  | recordCrossRegionSync (operator : Address) (record : CrossRegionSyncRecord D)
  | initiateFailover (operator : Address) (failoverId : D) (oldPrimary newPrimary triggerReason : Symbol)
      (fencingToken : ℕ)
  deriving DecidableEq

/-- What a call does; the result is the failover it carries out. -/
def exec (zeros : D) : Op D → Fn D (Option (FailoverEvent D))
  | .registerRegion admin regionId endpointUrlHash isPrimary trafficWeight => do
    let _ ← registerRegion zeros admin regionId endpointUrlHash isPrimary trafficWeight
    return none
  | .heartbeatRegion operator regionId processedLedgerSeq stateRootHash healthStatus => do
    let _ ← heartbeatRegion operator regionId processedLedgerSeq stateRootHash healthStatus
    return none
  | .recordCrossRegionSync operator record => do
    recordCrossRegionSync operator record
    return none
  | .initiateFailover operator failoverId oldPrimary newPrimary triggerReason fencingToken =>
    return some (← initiateFailover operator failoverId oldPrimary newPrimary triggerReason fencingToken)

/-! ## Effects -/

/-- What is stored of regions, failovers and the topology. -/
structure View (D : Type) where
  regions : Symbol → Option (RegionNode D)
  failovers : D → Option (FailoverEvent D)
  config : Option MultiRegionTopologyConfig

def view (s : State D) : View D where
  regions := s.persistent .region
  failovers := s.persistent .failover
  config := s.persistent .topologyConfig ()

section
variable {zeros : D} {env : Env} {s : State D}

@[simp] theorem view_putRegion {r : Symbol} {node : RegionNode D} : view (s.putPers .region r node) =
    { view s with regions := Function.update (view s).regions r (some node) } := by
  simp [view]

@[simp] theorem view_putFailover {i : D} {event : FailoverEvent D} : view (s.putPers .failover i event) =
    { view s with failovers := Function.update (view s).failovers i (some event) } := by
  simp [view]

@[simp] theorem view_putTopologyConfig {cfg : MultiRegionTopologyConfig} :
    view (s.putPers .topologyConfig () cfg) = { view s with config := some cfg } := by
  simp [view]

@[simp] theorem view_putRegisteredRegionsList {l : List Symbol} :
    view (s.putPers .registeredRegionsList () l) = view s := by
  simp [view]

@[simp] theorem view_putSyncRecord {k : Symbol × Symbol} {record : CrossRegionSyncRecord D} :
    view (s.putPers .syncRecord k record) = view s := by
  simp [view]

@[simp] theorem view_putLatestFailover {event : FailoverEvent D} :
    view (s.putPers .latestFailover () event) = view s := by
  simp [view]

/-- The old primary is no longer primary, when it is registered. -/
def demote (regions : Symbol → Option (RegionNode D)) (old : Symbol) : Symbol → Option (RegionNode D) :=
  match regions old with
  | some node => Function.update regions old
      (some { node with isPrimary := false, healthStatus := .draining })
  | none => regions

/-- The record of a failover. -/
def failoverEvent (now : ℕ) (failoverId : D) (oldPrimary newPrimary triggerReason : Symbol)
    (fencingToken : ℕ) :
    FailoverEvent D where
  failoverId := failoverId
  oldPrimary := oldPrimary
  newPrimary := newPrimary
  triggerReason := triggerReason
  initiatedAt := now
  completedAt := now
  consistencyVerified := true
  fencingToken := fencingToken

/-- What a call that succeeds does. -/
inductive Effect (v : View D) (now : ℕ) : Op D → Option (FailoverEvent D) → View D → Prop
  | registerRegion {admin : Address} {r : Symbol} {h : D} {isPrimary : Bool} {w : ℕ} {node : RegionNode D}
      (hnew : v.regions r = none) (hnode : node.isPrimary = isPrimary) :
      Effect v now (.registerRegion admin r h isPrimary w) none
        { v with regions := Function.update v.regions r (some node) }
  | heartbeatRegion {operator : Address} {r : Symbol} {seq : ℕ} {root : D} {health : RegionHealthStatus}
      {node node' : RegionNode D} (hnode : v.regions r = some node)
      (hsame : node'.isPrimary = node.isPrimary) :
      Effect v now (.heartbeatRegion operator r seq root health) none
        { v with regions := Function.update v.regions r (some node') }
  | recordCrossRegionSync {operator : Address} {record : CrossRegionSyncRecord D} :
      Effect v now (.recordCrossRegionSync operator record) none v
  | initiateFailover {operator : Address} {i : D} {old new reason : Symbol} {token : ℕ} {node : RegionNode D}
      {cfg : MultiRegionTopologyConfig} (hnode : node.isPrimary = true) (hprimary : cfg.primaryRegion = new)
      (htoken : cfg.currentFencingToken = token) :
      Effect v now (.initiateFailover operator i old new reason token)
        (some (failoverEvent now i old new reason token))
        { regions := Function.update (demote v.regions old) new (some node)
          failovers := Function.update v.failovers i (some (failoverEvent now i old new reason token))
          config := some cfg }

theorem effect_of_exec {op : Op D} :
    Post (exec zeros op) (fun event s' => Effect (view s) env.timestamp op event (view s')) env s := by
  cases op with
  | registerRegion admin r h isPrimary w =>
    simp [exec, registerRegion]
    exact fun _ hnew => .registerRegion hnew rfl
  | heartbeatRegion operator r seq root health =>
    simp [exec, heartbeatRegion]
    exact fun _ node hnode => .heartbeatRegion hnode rfl
  | recordCrossRegionSync operator record =>
    simp [exec, recordCrossRegionSync]
    exact fun _ => .recordCrossRegionSync
  | initiateFailover operator i old new reason token =>
    simp [exec, initiateFailover]
    intro _ node _ _
    refine ⟨fun oldNode hold => ?_, fun hold => ?_⟩
    · have hdemote : Function.update (view s).regions old
          (some { oldNode with isPrimary := false, healthStatus := .draining }) =
            demote (view s).regions old := by
        rw [demote, show (view s).regions old = some oldNode from hold]
      rw [hdemote]
      exact .initiateFailover rfl rfl rfl
    · have hdemote : (view s).regions = demote (view s).regions old := by
        rw [demote, show (view s).regions old = none from hold]
      rw [hdemote]
      exact .initiateFailover rfl rfl rfl

end

end MultiRegion
