/-
  FeatureFlags — the flags of the contract (`src/event_feature_flags.rs`).

  A flag is created, its canary is advanced, and its kill switch is triggered and reset by owners; everybody
  can evaluate it.  The owners are those of the `AuditLedger` that the flags are stored with: a call is given
  its `Roster` (`AuditLedger.rosterOf`), which it does not write.  Two of the errors are not among those of
  `AuditLedger`.

  * `evaluate`: what an evaluation returns for a record;
  * `advanced`, `triggered`, `wasReset`: the records that the calls of owners store.
-/
import AuditTransparency.Ledger.Owners

namespace FeatureFlags

open Soroban
open Soroban.Call
open AuditLedger (Roster)

/-! ## Data -/

inductive ContractError where
  | callerNotOwner
  | roleNotGranted
  | duplicateEventId
  | eventNotFound
  deriving DecidableEq

inductive FlagType where
  | boolean
  | percentageRollout
  | multivariate
  | killSwitch
  deriving DecidableEq

inductive FlagStatus where
  | active
  | inactive
  | killed
  | graduated
  deriving DecidableEq

structure EvaluationContext where
  userId : String
  caller : Address
  environment : Symbol
  clientVersion : String

structure CanaryConfig where
  isActive : Bool
  currentPercentage : ℕ
  targetPercentage : ℕ
  stepPercentage : ℕ
  evaluationWindowSeconds : ℕ
  errorThresholdBps : ℕ
  currentStage : ℕ
  autoPromote : Bool
  lastPromotedAt : ℕ
  deriving DecidableEq

structure ExperimentConfig where
  isActive : Bool
  experimentId : String
  variants : List String
  weights : List ℕ
  winnerVariant : String
  deriving DecidableEq

structure KillSwitchConfig where
  isTriggered : Bool
  triggeredBy : Address
  reason : String
  triggeredAt : ℕ
  affectedEventTypes : List Symbol
  deriving DecidableEq

structure FeatureFlagRecord where
  key : String
  flagType : FlagType
  status : FlagStatus
  defaultValue : Bool
  canary : CanaryConfig
  experiment : ExperimentConfig
  killSwitch : KillSwitchConfig
  updatedAt : ℕ
  updatedBy : Address
  description : String
  deriving DecidableEq

structure EvaluationResult where
  flagKey : String
  enabled : Bool
  variant : String
  reason : Symbol
  isKillSwitchActive : Bool
  deriving DecidableEq

/-- The constructors that the functions use. -/
inductive FlagDataKey where
  | flag
  | flagList
  deriving DecidableEq

@[reducible] def FlagDataKey.Key : FlagDataKey → Type
  | flag => String
  | flagList => Unit

@[reducible] def FlagDataKey.Val : FlagDataKey → Type
  | flag => FeatureFlagRecord
  | flagList => List String

instance FlagDataKey.decEqKey : (f : FlagDataKey) → DecidableEq f.Key
  | flag => inferInstanceAs (DecidableEq String)
  | flagList => inferInstanceAs (DecidableEq Unit)

/-- The events, each with the name in its topics. -/
inductive FlagEvent where
  | flagCreated (flagKey : String) (flagType : FlagType) (creator : Address) (timestamp : ℕ)
  | canaryAdvanced (flagKey : String) (newPercentage stage timestamp : ℕ)
  | killSwitchTriggered (flagKey : String) (initiator : Address) (reason : String) (timestamp : ℕ)
  | killSwitchReset (flagKey : String) (initiator : Address) (timestamp : ℕ)
  deriving DecidableEq

abbrev layout : Layout where
  Field := FlagDataKey
  Key := FlagDataKey.Key
  Val := FlagDataKey.Val
  Note := FlagEvent

abbrev State := Ledger layout

abbrev Fn : Type → Type := Call ContractError layout

/-- `env.storage().persistent()` -/
abbrev get (f : FlagDataKey) (k : f.Key) : Fn (Option f.Val) := Call.loadPers layout f k
abbrev set (f : FlagDataKey) (k : f.Key) (v : f.Val) : Fn Unit := Call.storePers layout f k v
abbrev emit (n : FlagEvent) : Fn Unit := Call.publish layout n

/-! ## Records -/

/-- The record of a flag that does not exist. -/
def missing (key : String) (caller : Address) : FeatureFlagRecord where
  key := key
  flagType := .boolean
  status := .inactive
  defaultValue := false
  canary := ⟨false, 0, 0, 0, 0, 0, 0, false, 0⟩
  experiment := ⟨false, "", [], [], ""⟩
  killSwitch := ⟨false, caller, "", 0, []⟩
  updatedAt := 0
  updatedBy := caller
  description := ""

/-- The bucket is a number of the ledger sequence alone. -/
def computeHashBucket (sequence : ℕ) (_key _userId : String) : ℕ := sequence % 100

def resolveExperimentVariant (config : ExperimentConfig) (_userId : String) : String :=
  config.variants.head?.getD config.winnerVariant

/-- What `evaluate_flag` makes of a record. -/
def evaluate (record : FeatureFlagRecord) (key : String) (context : EvaluationContext) (sequence : ℕ) :
    EvaluationResult :=
  if record.status = .killed ∨ record.killSwitch.isTriggered = true then
    ⟨key, false, "killed", "kill_switch", true⟩
  else if record.status = .inactive then ⟨key, record.defaultValue, "default", "flag_inactive", false⟩
  else if record.status = .graduated then ⟨key, true, "graduated", "graduated", false⟩
  else if record.canary.isActive = true ∧ 0 < record.canary.currentPercentage then
    let bucket := computeHashBucket sequence key context.userId
    let inCanary := decide (bucket < record.canary.currentPercentage)
    ⟨key, inCanary, if inCanary then "canary" else "baseline", "canary_rollout", false⟩
  else if record.experiment.isActive = true ∧ 0 < record.experiment.variants.length then
    ⟨key, true, resolveExperimentVariant record.experiment context.userId, "experiment", false⟩
  else ⟨key, record.defaultValue, "default", "default", false⟩

/-- The percentage of the next stage. -/
def CanaryConfig.next (canary : CanaryConfig) : ℕ :=
  min (min (canary.currentPercentage + canary.stepPercentage) canary.targetPercentage) 100

/-- What `advance_canary_stage` stores. -/
def advanced (now : ℕ) (caller : Address) (record : FeatureFlagRecord) : FeatureFlagRecord :=
  { record with
    status := if 100 ≤ record.canary.next then .graduated else record.status
    canary := { record.canary with
      isActive := if 100 ≤ record.canary.next then false else record.canary.isActive
      currentPercentage := record.canary.next
      currentStage := record.canary.currentStage + 1
      lastPromotedAt := now }
    updatedAt := now
    updatedBy := caller }

/-- What `trigger_kill_switch` stores. -/
def triggered (now : ℕ) (caller : Address) (reason : String) (affectedEvents : List Symbol)
    (record : FeatureFlagRecord) : FeatureFlagRecord :=
  { record with
    status := .killed
    killSwitch := ⟨true, caller, reason, now, affectedEvents⟩
    updatedAt := now
    updatedBy := caller }

/-- What `reset_kill_switch` stores. -/
def wasReset (now : ℕ) (caller : Address) (record : FeatureFlagRecord) : FeatureFlagRecord :=
  { record with
    status := .active
    killSwitch := { record.killSwitch with isTriggered := false }
    updatedAt := now
    updatedBy := caller }

/-! ## Functions -/

/-- `AuditLedger::require_owner_or_multisig` -/
def requireOwnerOrMultisig (ρ : Roster) (caller : Address) : Fn Unit :=
  if ρ.rbac = true then rejectIf (ρ.role caller ≠ some .admin) .roleNotGranted
  else rejectIf (¬ρ.IsOwner caller) .callerNotOwner

variable (ρ : Roster)

def appendToFlagList (key : String) : Fn Unit := do
  set .flagList () ((← get .flagList ()).getD [] ++ [key])

def createFeatureFlag (caller : Address) (key : String) (flagType : FlagType) (defaultValue : Bool)
    (canary : CanaryConfig) (experiment : ExperimentConfig) (description : String) : Fn FeatureFlagRecord := do
  requireAuth caller
  requireOwnerOrMultisig ρ caller
  rejectIf (← get .flag key).isSome .duplicateEventId
  let now := (← getEnv).timestamp
  let record : FeatureFlagRecord := {
    key, flagType, defaultValue, canary, experiment, description
    status := .active
    killSwitch := ⟨false, caller, "", 0, []⟩
    updatedAt := now
    updatedBy := caller }
  set .flag key record
  appendToFlagList key
  emit (.flagCreated key flagType caller now)
  return record

def evaluateFlag (key : String) (context : EvaluationContext) : Fn EvaluationResult := do
  let record := (← get .flag key).getD (missing key context.caller)
  let sequence := (← getEnv).sequence
  return evaluate record key context sequence

def advanceCanaryStage (caller : Address) (key : String) : Fn FeatureFlagRecord := do
  requireAuth caller
  requireOwnerOrMultisig ρ caller
  let record ← unwrapOr (← get .flag key) .eventNotFound
  let now := (← getEnv).timestamp
  let _ ← addChecked 32 record.canary.currentPercentage record.canary.stepPercentage
  let stage ← addChecked 32 record.canary.currentStage 1
  let record := advanced now caller record
  set .flag key record
  emit (.canaryAdvanced key record.canary.currentPercentage stage now)
  return record

def triggerKillSwitch (caller : Address) (key reason : String) (affectedEvents : List Symbol) :
    Fn FeatureFlagRecord := do
  requireAuth caller
  requireOwnerOrMultisig ρ caller
  let record ← unwrapOr (← get .flag key) .eventNotFound
  let now := (← getEnv).timestamp
  let record := triggered now caller reason affectedEvents record
  set .flag key record
  emit (.killSwitchTriggered key caller reason now)
  return record

def resetKillSwitch (caller : Address) (key : String) : Fn FeatureFlagRecord := do
  requireAuth caller
  requireOwnerOrMultisig ρ caller
  let record ← unwrapOr (← get .flag key) .eventNotFound
  let now := (← getEnv).timestamp
  let record := wasReset now caller record
  set .flag key record
  emit (.killSwitchReset key caller now)
  return record

/-! ## Phases -/

/-- What an evaluation depends on, of the status, the kill switch and the canary. -/
inductive Phase where
  | killed
  | inactive
  | graduated
  | rolling
  | settled
  deriving DecidableEq

def phaseOf (status : FlagStatus) (isTriggered : Bool) (running : Prop) [Decidable running] : Phase :=
  if status = .killed ∨ isTriggered = true then .killed
  else if status = .inactive then .inactive
  else if status = .graduated then .graduated
  else if running then .rolling
  else .settled

/-- The canary is active, and not at zero. -/
def CanaryConfig.Running (canary : CanaryConfig) : Prop := canary.isActive = true ∧ 0 < canary.currentPercentage

instance (canary : CanaryConfig) : Decidable canary.Running := instDecidableAnd

def FeatureFlagRecord.phase (record : FeatureFlagRecord) : Phase :=
  phaseOf record.status record.killSwitch.isTriggered record.canary.Running

/-- The experiment is active, and has variants. -/
def ExperimentConfig.Running (experiment : ExperimentConfig) : Prop :=
  experiment.isActive = true ∧ 0 < experiment.variants.length

instance (experiment : ExperimentConfig) : Decidable experiment.Running := instDecidableAnd

section
variable {status : FlagStatus} {isTriggered : Bool} {running : Prop} [Decidable running]

theorem phaseOf_eq_inactive : phaseOf status isTriggered running = .inactive ↔
    status = .inactive ∧ isTriggered = false := by
  cases status <;> cases isTriggered <;> by_cases h : running <;> simp [phaseOf, h]

theorem phaseOf_eq_graduated : phaseOf status isTriggered running = .graduated ↔
    status = .graduated ∧ isTriggered = false := by
  cases status <;> cases isTriggered <;> by_cases h : running <;> simp [phaseOf, h]

theorem phaseOf_eq_rolling : phaseOf status isTriggered running = .rolling ↔
    (status = .active ∧ isTriggered = false) ∧ running := by
  cases status <;> cases isTriggered <;> by_cases h : running <;> simp [phaseOf, h]

theorem phaseOf_eq_settled : phaseOf status isTriggered running = .settled ↔
    (status = .active ∧ isTriggered = false) ∧ ¬running := by
  cases status <;> cases isTriggered <;> by_cases h : running <;> simp [phaseOf, h]

end

/-- The checks of an evaluation are those of the phase. -/
theorem phaseOf_elim {α : Type} (status : FlagStatus) (isTriggered : Bool) (running : Prop) [Decidable running]
    (a b c d e : α) :
    (if status = .killed ∨ isTriggered = true then a
      else if status = .inactive then b
      else if status = .graduated then c
      else if running then d
      else e) =
    match phaseOf status isTriggered running with
    | .killed => a
    | .inactive => b
    | .graduated => c
    | .rolling => d
    | .settled => e := by
  rw [phaseOf]
  split_ifs <;> rfl

theorem evaluate_eq (record : FeatureFlagRecord) (key : String) (context : EvaluationContext) (sequence : ℕ) :
    evaluate record key context sequence =
      match record.phase with
      | .killed => ⟨key, false, "killed", "kill_switch", true⟩
      | .inactive => ⟨key, record.defaultValue, "default", "flag_inactive", false⟩
      | .graduated => ⟨key, true, "graduated", "graduated", false⟩
      | .rolling =>
        let inCanary := decide (sequence % 100 < record.canary.currentPercentage)
        ⟨key, inCanary, if inCanary then "canary" else "baseline", "canary_rollout", false⟩
      | .settled =>
        if record.experiment.Running then
          ⟨key, true, resolveExperimentVariant record.experiment context.userId, "experiment", false⟩
        else ⟨key, record.defaultValue, "default", "default", false⟩ :=
  phaseOf_elim ..

/-! ## What calls do -/

variable {ρ} {env : Env} {s : State}

@[simp] theorem post_requireOwnerOrMultisig {caller : Address} {Q : Unit → State → Prop} :
    Post (requireOwnerOrMultisig ρ caller) Q env s ↔
      ((requireOwnerOrMultisig ρ caller).run env s = .ok ((), s) → Q () s) := by
  rw [requireOwnerOrMultisig, run_ite, run_rejectIf, run_rejectIf]
  split_ifs <;> simp_all

/-- Evaluating changes nothing. -/
theorem evaluateFlag_run (key : String) (context : EvaluationContext) :
    (evaluateFlag key context).run env s =
      .ok (evaluate ((s.persistent .flag key).getD (missing key context.caller)) key context env.sequence, s) :=
  rfl

theorem post_advanceCanaryStage {caller : Address} {key : String} :
    Post (advanceCanaryStage ρ caller key) (fun _ s' => ∃ record, s.persistent .flag key = some record ∧
      s'.persistent .flag = Function.update (s.persistent .flag) key
        (some (advanced env.timestamp caller record))) env s := by
  simp [advanceCanaryStage]
  exact fun _ _ record hrecord _ _ => ⟨record, hrecord, rfl⟩

theorem post_triggerKillSwitch {caller : Address} {key reason : String} {affectedEvents : List Symbol} :
    Post (triggerKillSwitch ρ caller key reason affectedEvents) (fun _ s' => ∃ record,
      s.persistent .flag key = some record ∧ s'.persistent .flag = Function.update (s.persistent .flag) key
        (some (triggered env.timestamp caller reason affectedEvents record))) env s := by
  simp [triggerKillSwitch]
  exact fun _ _ record hrecord => ⟨record, hrecord, rfl⟩

theorem post_resetKillSwitch {caller : Address} {key : String} :
    Post (resetKillSwitch ρ caller key) (fun _ s' => ∃ record, s.persistent .flag key = some record ∧
      s'.persistent .flag = Function.update (s.persistent .flag) key
        (some (wasReset env.timestamp caller record))) env s := by
  simp [resetKillSwitch]
  exact fun _ _ record hrecord => ⟨record, hrecord, rfl⟩

end FeatureFlags
