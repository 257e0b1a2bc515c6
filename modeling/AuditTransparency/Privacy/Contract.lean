/-
  PrivacyPreservingAnalytics — coordination of private computations
  (`src/privacy_preserving_analytics.rs`).

  The contract accounts for the budget of differentially private queries, coordinates
  rounds of federated learning and sessions of multi-party computation, and anchors
  encrypted metrics.  Everything is kept in the instance store.

  A function that returns `Err` fails: the host reverts what it has written.
-/
import AuditTransparency.Soroban.Script
import AuditTransparency.Soroban.Writes

namespace PrivacyAnalytics

open Soroban
open Soroban.Call

/-! ## Data -/

inductive PrivacyAnalyticsError where
  | notInitialized
  | alreadyInitialized
  | unauthorized
  | budgetExhausted
  | invalidSensitivity
  | roundNotFound
  | roundClosed
  | insufficientParticipants
  | duplicateGradientSubmission
  | smpcSessionNotFound
  | smpcThresholdNotMet
  | invalidProof
  deriving DecidableEq

structure PrivacyBudget where
  maxEpsilonScaled : ℕ
  maxDeltaScaled : ℕ
  spentEpsilonScaled : ℕ
  spentDeltaScaled : ℕ
  queryCount : ℕ
  lastReset : ℕ
  deriving DecidableEq

inductive NoiseMechanism where
  | laplace
  | gaussian
  deriving DecidableEq

inductive DPQueryType where
  | count
  | sum
  | average
  | histogram
  deriving DecidableEq

structure DPQueryRecord (D : Type) where
  queryId : D
  queryType : DPQueryType
  caller : Address
  sensitivity : ℕ
  epsilonCostScaled : ℕ
  noiseMechanism : NoiseMechanism
  noisyResult : ℤ
  executedAt : ℕ
  deriving DecidableEq

structure FLRound (D : Type) where
  roundId : ℕ
  modelId : Symbol
  globalWeightsHash : D
  minParticipants : ℕ
  participantCount : ℕ
  status : Symbol
  createdAt : ℕ
  deriving DecidableEq

structure FLGradientSubmission (D : Type) where
  roundId : ℕ
  participant : Address
  gradientHash : D
  sampleSize : ℕ
  submittedAt : ℕ
  deriving DecidableEq

structure SmpcSession (D : Type) where
  sessionId : D
  initiator : Address
  threshold : ℕ
  totalParties : ℕ
  metricId : Symbol
  commitmentsCount : ℕ
  aggregatedResultHash : D
  status : Symbol
  createdAt : ℕ
  deriving DecidableEq

structure HomomorphicMetricRecord (D : Type) where
  ciphertextId : D
  submitter : Address
  encryptedValue : Bytes
  publicKeyHash : D
  proofOfValidity : Bytes
  timestamp : ℕ
  deriving DecidableEq

/-! ## Storage keys -/

inductive PrivacyKey where
  | admin
  | budget
  | dpQuery
  | flRound
  | flGradient
  | nextRoundId
  | smpcSession
  | smpcCommitment
  | homomorphicMetric
  deriving DecidableEq

/-- The argument of a key. -/
@[reducible] def PrivacyKey.Key (D : Type) : PrivacyKey → Type
  | admin | budget | nextRoundId => Unit
  | dpQuery | smpcSession | homomorphicMetric => D
  | flRound => ℕ
  | flGradient => ℕ × Address
  | smpcCommitment => D × Address

/-- The value stored under a key. -/
@[reducible] def PrivacyKey.Val (D : Type) : PrivacyKey → Type
  | admin => Address
  | budget => PrivacyBudget
  | dpQuery => DPQueryRecord D
  | flRound => FLRound D
  | flGradient => FLGradientSubmission D
  | nextRoundId => ℕ
  | smpcSession => SmpcSession D
  | smpcCommitment => D
  | homomorphicMetric => HomomorphicMetricRecord D

instance PrivacyKey.decEqKey {D : Type} [DecidableEq D] : (f : PrivacyKey) → DecidableEq (f.Key D)
  | admin | budget | nextRoundId => inferInstanceAs (DecidableEq Unit)
  | dpQuery | smpcSession | homomorphicMetric => inferInstanceAs (DecidableEq D)
  | flRound => inferInstanceAs (DecidableEq ℕ)
  | flGradient => inferInstanceAs (DecidableEq (ℕ × Address))
  | smpcCommitment => inferInstanceAs (DecidableEq (D × Address))

/-- The storage of the contract; it publishes nothing. -/
abbrev layout (D : Type) [DecidableEq D] : Layout where
  Field := PrivacyKey
  Key := PrivacyKey.Key D
  Val := PrivacyKey.Val D
  Note := Empty

abbrev State (D : Type) [DecidableEq D] := Ledger (layout D)

abbrev Fn (D : Type) [DecidableEq D] : Type → Type := Call PrivacyAnalyticsError (layout D)

section
variable {D : Type} [DecidableEq D]

/-- `env.storage().instance()` -/
abbrev get (f : PrivacyKey) (k : f.Key D) : Fn D (Option (f.Val D)) := Call.load (layout D) f k
abbrev set (f : PrivacyKey) (k : f.Key D) (v : f.Val D) : Fn D Unit := Call.store (layout D) f k v

/-! ## Functions -/

/-- `initialize` -/
def initializeAnalytics (admin : Address) (maxEpsilonScaled maxDeltaScaled : ℕ) : Fn D Unit := do
  rejectIf (← get .admin ()).isSome .alreadyInitialized
  requireAuth admin
  let now := (← getEnv).timestamp
  set .admin () admin
  set .budget () {
    maxEpsilonScaled, maxDeltaScaled
    spentEpsilonScaled := 0
    spentDeltaScaled := 0
    queryCount := 0
    lastReset := now }
  set .nextRoundId () 1

/-- `execute_dp_query` -/
def executeDpQuery (caller : Address) (queryId : D) (queryType : DPQueryType)
    (sensitivity epsilonCostScaled : ℕ) (noiseMechanism : NoiseMechanism) (noisyResult : ℤ) : Fn D ℤ := do
  requireAuth caller
  let budget ← unwrapOr (← get .budget ()) .notInitialized
  let spent ← addChecked 64 budget.spentEpsilonScaled epsilonCostScaled
  rejectIf (spent > budget.maxEpsilonScaled) .budgetExhausted
  rejectIf (sensitivity = 0) .invalidSensitivity
  let queryCount ← addChecked 32 budget.queryCount 1
  set .budget () { budget with spentEpsilonScaled := spent, queryCount }
  let now := (← getEnv).timestamp
  set .dpQuery queryId {
    queryId, queryType, caller, sensitivity, epsilonCostScaled, noiseMechanism, noisyResult
    executedAt := now }
  return noisyResult

/-- `start_fl_round` -/
def startFlRound (coordinator : Address) (modelId : Symbol) (minParticipants : ℕ)
    (initialWeightsHash : D) : Fn D ℕ := do
  requireAuth coordinator
  let roundId := (← get .nextRoundId ()).getD 1
  let now := (← getEnv).timestamp
  set .flRound roundId {
    roundId, modelId
    globalWeightsHash := initialWeightsHash
    minParticipants
    participantCount := 0
    status := "open"
    createdAt := now }
  set .nextRoundId () (← addChecked 64 roundId 1)
  return roundId

/-- `submit_fl_gradient` -/
def submitFlGradient (participant : Address) (roundId : ℕ) (gradientHash : D) (sampleSize : ℕ) :
    Fn D Unit := do
  requireAuth participant
  let round ← unwrapOr (← get .flRound roundId) .roundNotFound
  rejectIf (round.status ≠ "open") .roundClosed
  rejectIf (← get .flGradient (roundId, participant)).isSome .duplicateGradientSubmission
  let now := (← getEnv).timestamp
  set .flGradient (roundId, participant)
    { roundId, participant, gradientHash, sampleSize, submittedAt := now }
  let participantCount ← addChecked 32 round.participantCount 1
  set .flRound roundId { round with participantCount }

/-- `aggregate_fl_round` -/
def aggregateFlRound (coordinator : Address) (roundId : ℕ) (newWeightsHash : D) : Fn D Unit := do
  requireAuth coordinator
  let round ← unwrapOr (← get .flRound roundId) .roundNotFound
  rejectIf (round.participantCount < round.minParticipants) .insufficientParticipants
  set .flRound roundId { round with globalWeightsHash := newWeightsHash, status := "aggregated" }

/-- `create_smpc_session`; `zeros` is `BytesN::from_array(&env, &[0u8; 32])`. -/
def createSmpcSession (zeros : D) (initiator : Address) (sessionId : D) (threshold totalParties : ℕ)
    (metricId : Symbol) : Fn D D := do
  requireAuth initiator
  let now := (← getEnv).timestamp
  set .smpcSession sessionId {
    sessionId, initiator, threshold, totalParties, metricId
    commitmentsCount := 0
    aggregatedResultHash := zeros
    status := "initialized"
    createdAt := now }
  return sessionId

/-- `submit_smpc_commitment` -/
def submitSmpcCommitment (party : Address) (sessionId commitment : D) : Fn D Unit := do
  requireAuth party
  let session ← unwrapOr (← get .smpcSession sessionId) .smpcSessionNotFound
  set .smpcCommitment (sessionId, party) commitment
  let commitmentsCount ← addChecked 32 session.commitmentsCount 1
  let session := { session with commitmentsCount }
  let session := if session.commitmentsCount ≥ session.threshold then { session with status := "active" }
    else session
  set .smpcSession sessionId session

/-- `finalize_smpc_session` -/
def finalizeSmpcSession (caller : Address) (sessionId aggregatedResultHash : D) : Fn D Unit := do
  requireAuth caller
  let session ← unwrapOr (← get .smpcSession sessionId) .smpcSessionNotFound
  rejectIf (session.commitmentsCount < session.threshold) .smpcThresholdNotMet
  set .smpcSession sessionId { session with aggregatedResultHash, status := "completed" }

/-- `record_homomorphic_metric` -/
def recordHomomorphicMetric (submitter : Address) (metric : HomomorphicMetricRecord D) : Fn D D := do
  requireAuth submitter
  set .homomorphicMetric metric.ciphertextId metric
  return metric.ciphertextId

/-! ## Operations -/

/-- The functions that can write, but for `initialize`. -/
inductive Op (D : Type) where
  | executeDpQuery (caller : Address) (queryId : D) (queryType : DPQueryType)
      (sensitivity epsilonCostScaled : ℕ) (noiseMechanism : NoiseMechanism) (noisyResult : ℤ)
  | startFlRound (coordinator : Address) (modelId : Symbol) (minParticipants : ℕ) (initialWeightsHash : D)
  | submitFlGradient (participant : Address) (roundId : ℕ) (gradientHash : D) (sampleSize : ℕ)
  | aggregateFlRound (coordinator : Address) (roundId : ℕ) (newWeightsHash : D)
  | createSmpcSession (initiator : Address) (sessionId : D) (threshold totalParties : ℕ) (metricId : Symbol)
  | submitSmpcCommitment (party : Address) (sessionId commitment : D)
  | finalizeSmpcSession (caller : Address) (sessionId aggregatedResultHash : D)
  | recordHomomorphicMetric (submitter : Address) (metric : HomomorphicMetricRecord D)
  deriving DecidableEq

/-- What a function returns. -/
inductive Ret (D : Type) where
  | unit
  | int (i : ℤ)
  | nat (n : ℕ)
  | id (d : D)
  deriving DecidableEq

/-- Runs an operation. -/
def exec (zeros : D) : Op D → Fn D (Ret D)
  | .executeDpQuery a d q n c k i => return .int (← executeDpQuery a d q n c k i)
  | .startFlRound a m n d => return .nat (← startFlRound a m n d)
  | .submitFlGradient a i d n => do submitFlGradient a i d n; return .unit
  | .aggregateFlRound a i d => do aggregateFlRound a i d; return .unit
  | .createSmpcSession a d n m t => return .id (← createSmpcSession zeros a d n m t)
  | .submitSmpcCommitment a d c => do submitSmpcCommitment a d c; return .unit
  | .finalizeSmpcSession a d h => do finalizeSmpcSession a d h; return .unit
  | .recordHomomorphicMetric a x => return .id (← recordHomomorphicMetric a x)

/-- A run starts from an empty ledger, or from what `initialize` makes of it. -/
def Fresh (s : State D) : Prop :=
  s = Ledger.empty ∨ ∃ env a n m, (initializeAnalytics a n m).run env Ledger.empty = .ok ((), s)

/-! ## Effects -/

/-- The keys an operation can write. -/
@[reducible] def Op.writes : Op D → List PrivacyKey
  | executeDpQuery .. => [.budget, .dpQuery]
  | startFlRound .. => [.flRound, .nextRoundId]
  | submitFlGradient .. => [.flGradient, .flRound]
  | aggregateFlRound .. => [.flRound]
  | createSmpcSession .. | finalizeSmpcSession .. => [.smpcSession]
  | submitSmpcCommitment .. => [.smpcCommitment, .smpcSession]
  | recordHomomorphicMetric .. => [.homomorphicMetric]

set_option synthInstance.maxSize 100000 in
/-- **Frame of the contract.** -/
theorem exec_writes (zeros : D) (op : Op D) : Writes (layout D) op.writes (exec zeros op) := by
  cases op <;>
    simp only [exec, Op.writes, executeDpQuery, startFlRound, submitFlGradient, aggregateFlRound,
      createSmpcSession, submitSmpcCommitment, finalizeSmpcSession, recordHomomorphicMetric] <;>
    infer_instance

/-- What `initialize` leaves. -/
theorem initialized {env : Env} {a : Address} {n m : ℕ} {s s' : State D}
    (h : (initializeAnalytics a n m).run env s = .ok ((), s')) :
    s' = ((s.put .admin () a).put .budget () ⟨n, m, 0, 0, 0, env.timestamp⟩).put .nextRoundId () 1 := by
  refine Post.of_run (m := initializeAnalytics a n m)
    (Q := fun _ s' => s' = ((s.put .admin () a).put .budget ()
    ⟨n, m, 0, 0, 0, env.timestamp⟩).put .nextRoundId () 1) ?_ h
  simp only [initializeAnalytics, post_bind, post_load, post_rejectIf, post_requireAuth,
    post_getEnv, post_store]
  intro _ _
  trivial

/-- Outside the administration, nothing is stored at the start. -/
theorem Fresh.eq_none {s : State D} (h : Fresh s) {f : PrivacyKey} (hf : f ∉ [.admin, .budget, .nextRoundId])
    (k : f.Key D) : s.inst f k = none := by
  rcases h with rfl | ⟨env, a, n, m, h⟩
  · rfl
  · simp only [List.mem_cons, List.not_mem_nil, or_false, not_or] at hf
    rw [initialized h, Ledger.put_inst_ne _ hf.2.2, Ledger.put_inst_ne _ hf.2.1, Ledger.put_inst_ne _ hf.1]
    rfl

end

end PrivacyAnalytics
