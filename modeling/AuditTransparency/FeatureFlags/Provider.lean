/-
  FeatureFlags — the flags of the package (`packages/feature-flags/src`): the provider, the stages of a canary,
  and the kill switches.

  Numbers are rational; a hash is an integer of 32 bits with its sign.

  * `calculateBucket_lt`: a bucket is below 100;
  * `ofRecord`: the flag that a record of the contract is.
-/
import AuditTransparency.FeatureFlags.Contract
import AuditTransparency.Migrations.Engine
import Mathlib.Data.Rat.Floor

namespace FeatureFlags.Provider

open Soroban (Address)

/-! ## Data -/

structure CanaryConfig where
  isActive : Bool
  currentPercentage : ℚ
  targetPercentage : ℚ
  stepPercentage : ℚ
  evaluationWindowSeconds : ℚ
  errorThresholdBps : ℚ
  currentStage : ℚ
  autoPromote : Bool
  lastPromotedAt : Option ℚ
  deriving DecidableEq

structure ExperimentConfig where
  isActive : Bool
  experimentId : String
  variants : List String
  weights : List ℚ
  winnerVariant : Option String
  deriving DecidableEq

structure KillSwitchConfig where
  isTriggered : Bool
  triggeredBy : String
  reason : String
  triggeredAt : ℚ
  affectedEventTypes : List String
  deriving DecidableEq

structure FeatureFlag where
  key : String
  type : FlagType
  status : FlagStatus
  defaultValue : Bool
  canary : CanaryConfig
  experiment : ExperimentConfig
  killSwitch : KillSwitchConfig
  updatedAt : ℚ
  updatedBy : String
  description : String
  deriving DecidableEq

structure EvaluationContext where
  userId : String
  caller : String

inductive Reason where
  | killSwitch
  | canaryRollout
  | experiment
  | graduated
  | default
  deriving DecidableEq

structure EvaluationDetail (T : Type) where
  flagKey : String
  value : T
  variant : Option String := none
  reason : Reason
  isKillSwitchActive : Bool
  deriving DecidableEq

/-! ## Buckets -/

/-- `x | 0` -/
def toInt32 (x : ℤ) : ℤ := Int.bmod x (2 ^ 32)

/-- One character; `<<` is on 32 bits. -/
def mix (hash : ℤ) (char : ℕ) : ℤ := toInt32 (toInt32 (hash * 2 ^ 5) - hash + char)

def calculateBucket (seed userKey : String) : ℕ :=
  ((Migrations.codeUnits (seed ++ ":" ++ userKey)).foldl mix 0).natAbs % 100

theorem calculateBucket_lt (seed userKey : String) : calculateBucket seed userKey < 100 :=
  Nat.mod_lt _ (by decide)

/-- `context.userId || context.caller` -/
def EvaluationContext.userKey (context : EvaluationContext) : String :=
  if context.userId = "" then context.caller else context.userId

/-! ## `AuditLedgerFlagProvider` -/

/-- What `evaluateBoolean` makes of a flag. -/
def FeatureFlag.evaluate (flag : FeatureFlag) (key : String) (context : EvaluationContext) :
    EvaluationDetail Bool :=
  if flag.status = .killed ∨ flag.killSwitch.isTriggered = true then
    { flagKey := key, value := false, reason := .killSwitch, isKillSwitchActive := true }
  else if flag.status = .inactive then
    { flagKey := key, value := flag.defaultValue, reason := .default, isKillSwitchActive := false }
  else if flag.status = .graduated then
    { flagKey := key, value := true, reason := .graduated, isKillSwitchActive := false }
  else if flag.canary.isActive = true ∧ 0 < flag.canary.currentPercentage then
    let bucket := calculateBucket key context.userKey
    let isIncluded := decide ((bucket : ℚ) < flag.canary.currentPercentage)
    { flagKey := key, value := isIncluded, variant := some (if isIncluded then "canary" else "baseline"),
      reason := .canaryRollout, isKillSwitchActive := false }
  else { flagKey := key, value := flag.defaultValue, reason := .default, isKillSwitchActive := false }

/-- The canary is active, and above zero. -/
def CanaryConfig.Running (canary : CanaryConfig) : Prop := canary.isActive = true ∧ 0 < canary.currentPercentage

instance (canary : CanaryConfig) : Decidable canary.Running := instDecidableAnd

def FeatureFlag.phase (flag : FeatureFlag) : Phase :=
  phaseOf flag.status flag.killSwitch.isTriggered flag.canary.Running

theorem evaluate_eq (flag : FeatureFlag) (key : String) (context : EvaluationContext) :
    flag.evaluate key context =
      match flag.phase with
      | .killed => ⟨key, false, none, .killSwitch, true⟩
      | .inactive => ⟨key, flag.defaultValue, none, .default, false⟩
      | .graduated => ⟨key, true, none, .graduated, false⟩
      | .rolling =>
        let isIncluded := decide ((calculateBucket key context.userKey : ℚ) < flag.canary.currentPercentage)
        ⟨key, isIncluded, some (if isIncluded then "canary" else "baseline"), .canaryRollout, false⟩
      | .settled => ⟨key, flag.defaultValue, none, .default, false⟩ :=
  phaseOf_elim ..

/-- `evaluateBoolean`; `flags` are those that are registered. -/
def evaluateBoolean (flags : String → Option FeatureFlag) (key : String) (defaultValue : Bool)
    (context : EvaluationContext) : EvaluationDetail Bool :=
  match flags key with
  | none => { flagKey := key, value := defaultValue, reason := .default, isKillSwitchActive := false }
  | some flag => flag.evaluate key context

/-- `weights[i] || (100 / variants.length)` -/
def ExperimentConfig.weight (experiment : ExperimentConfig) (i : ℕ) : ℚ :=
  let weight := experiment.weights.getD i 0
  if weight = 0 then 100 / experiment.variants.length else weight

/-- The loop of `evaluateVariant`: the first of `k` variants from `i` on whose cumulative weight is above. -/
def scan (weight : ℕ → ℚ) (bucket : ℚ) : ℕ → ℕ → ℚ → Option ℕ
  | 0, _, _ => none
  | k + 1, i, cumulative =>
    if bucket < cumulative + weight i then some i else scan weight bucket k (i + 1) (cumulative + weight i)

/-- The variant that a bucket is assigned to, by its index. -/
def ExperimentConfig.assign (experiment : ExperimentConfig) (bucket : ℕ) : ℕ :=
  (scan experiment.weight bucket experiment.variants.length 0 0).getD 0

def evaluateVariant (flags : String → Option FeatureFlag) (key fallback : String)
    (context : EvaluationContext) : EvaluationDetail String :=
  match flags key with
  | none => { flagKey := key, value := fallback, reason := .default, isKillSwitchActive := false }
  | some flag =>
    if flag.experiment.isActive = false ∨ flag.experiment.variants.length = 0 then
      { flagKey := key, value := fallback, reason := .default, isKillSwitchActive := false }
    else if flag.status = .killed ∨ flag.killSwitch.isTriggered = true then
      { flagKey := key, value := "killed", reason := .killSwitch, isKillSwitchActive := true }
    else
      let bucket := calculateBucket flag.experiment.experimentId context.userKey
      let variant := flag.experiment.variants.getD (flag.experiment.assign bucket) ""
      { flagKey := key, value := variant, variant := some variant, reason := .experiment,
        isKillSwitchActive := false }

/-! ## `ProgressiveDeliveryController` and `KillSwitchCoordinator` -/

def CanaryConfig.next (canary : CanaryConfig) : ℚ :=
  min 100 (min canary.targetPercentage (canary.currentPercentage + canary.stepPercentage))

/-- `advanceStage`; `now` is `Date.now()`. -/
def advanceStage (now : ℚ) (flag : FeatureFlag) : FeatureFlag :=
  { flag with
    canary := { flag.canary with
      currentPercentage := flag.canary.next
      currentStage := flag.canary.currentStage + 1
      lastPromotedAt := some now
      isActive := decide (flag.canary.next < 100) }
    status := if 100 ≤ flag.canary.next then .graduated else .active }

structure ActiveKillSwitch where
  reason : String
  triggeredAt : ℚ
  triggeredBy : String

/-- The kill switches that a coordinator has triggered and not reset. -/
abbrev KillSwitchCoordinator := String → Option ActiveKillSwitch

namespace KillSwitchCoordinator
variable (active : KillSwitchCoordinator)

def trigger (now : ℚ) (reason triggeredBy : String) (flag : FeatureFlag) :
    KillSwitchCoordinator × FeatureFlag :=
  (Function.update active flag.key (some ⟨reason, now, triggeredBy⟩),
    { flag with
      status := .killed
      killSwitch := ⟨true, triggeredBy, reason, now, flag.killSwitch.affectedEventTypes⟩ })

def reset (flag : FeatureFlag) : KillSwitchCoordinator × FeatureFlag :=
  (Function.update active flag.key none,
    { flag with
      status := .active
      killSwitch := { flag.killSwitch with isTriggered := false, reason := "" } })

def isKilled (flagKey : String) : Bool := (active flagKey).isSome

end KillSwitchCoordinator

/-! ## Records of the contract -/

/-- The strkey of an address. -/
def addressText (a : Address) : String := String.ofList (a.strkey.map fun b => Char.ofNat b.toNat)

/-- The flag that a record is. -/
def ofRecord (record : FeatureFlagRecord) : FeatureFlag where
  key := record.key
  type := record.flagType
  status := record.status
  defaultValue := record.defaultValue
  canary := {
    isActive := record.canary.isActive
    currentPercentage := record.canary.currentPercentage
    targetPercentage := record.canary.targetPercentage
    stepPercentage := record.canary.stepPercentage
    evaluationWindowSeconds := record.canary.evaluationWindowSeconds
    errorThresholdBps := record.canary.errorThresholdBps
    currentStage := record.canary.currentStage
    autoPromote := record.canary.autoPromote
    lastPromotedAt := some record.canary.lastPromotedAt }
  experiment := {
    isActive := record.experiment.isActive
    experimentId := record.experiment.experimentId
    variants := record.experiment.variants
    weights := record.experiment.weights.map fun (w : ℕ) => (w : ℚ)
    winnerVariant := some record.experiment.winnerVariant }
  killSwitch := {
    isTriggered := record.killSwitch.isTriggered
    triggeredBy := addressText record.killSwitch.triggeredBy
    reason := record.killSwitch.reason
    triggeredAt := record.killSwitch.triggeredAt
    affectedEventTypes := record.killSwitch.affectedEventTypes }
  updatedAt := record.updatedAt
  updatedBy := addressText record.updatedBy
  description := record.description

theorem phase_ofRecord (record : FeatureFlagRecord) : (ofRecord record).phase = record.phase := by
  have hrunning : (ofRecord record).canary.Running ↔ record.canary.Running :=
    and_congr_right fun _ => Nat.cast_pos
  rw [FeatureFlag.phase, FeatureFlagRecord.phase, phaseOf, phaseOf]
  simp only [hrunning]
  rfl

/-- The context that a context of the contract is. -/
def ofContext (context : FeatureFlags.EvaluationContext) : EvaluationContext where
  userId := context.userId
  caller := addressText context.caller

end FeatureFlags.Provider
