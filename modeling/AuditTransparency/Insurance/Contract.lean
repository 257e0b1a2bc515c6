/-
  ParametricInsurance — pools and policies (`src/parametric_insurance.rs`).

  Underwriters contribute capital to a pool.  A policy reserves its cover in a pool; it is
  cancelled by its holder, and claims on it are paid from the pool.  Neither the premiums nor
  the payouts are transferred, and the oracle is not asked: both are marked as to do in the
  source.

  `env.invoker()` is an argument of the functions here.  All entries are in the instance
  store.
-/
import AuditTransparency.Soroban.Script
import AuditTransparency.Soroban.Avoids

namespace ParametricInsurance

open Soroban
open Soroban.Call

/-! ## Data -/

inductive PolicyType where
  | dataLoss
  | dataCorruption
  | availability
  | bridgeLatency
  | custom
  deriving DecidableEq

inductive PolicyStatus where
  | active
  | lapsed
  | cancelled
  | matured
  deriving DecidableEq

structure Policy where
  policyId : ℕ
  policyType : PolicyType
  holder : Address
  coverageAmount : ℕ
  annualPremium : ℕ
  premiumFrequencyLedgers : ℕ
  lastPremiumLedger : ℕ
  expirationLedger : ℕ
  maxClaimsPerYear : ℕ
  claimsFiledThisYear : ℕ
  deductible : ℕ
  status : PolicyStatus
  oracleAddress : Address
  triggerParameter : ℕ
  capitalPoolId : ℕ
  deriving DecidableEq

structure CapitalPool where
  poolId : ℕ
  manager : Address
  totalCapital : ℕ
  availableCapital : ℕ
  reservedCapital : ℕ
  minimumCapital : ℕ
  premiumShareBps : ℕ
  policyIds : List ℕ
  totalClaimsPaid : ℕ
  poolFeeBps : ℕ
  deriving DecidableEq

structure Claim where
  claimId : ℕ
  policyId : ℕ
  claimant : Address
  coverageRequested : ℕ
  verifiedLoss : ℕ
  deductibleApplied : ℕ
  payoutAmount : ℕ
  status : ℕ
  oracleVerification : Bytes
  filedLedger : ℕ
  resolvedLedger : ℕ
  settlementTxHash : Option Bytes
  deriving DecidableEq

structure PoolShare where
  underwriter : Address
  poolId : ℕ
  capitalContributed : ℕ
  shareBps : ℕ
  unrealizedLosses : ℕ
  realizedLosses : ℕ
  rewardsEarned : ℕ
  deriving DecidableEq

structure InsuranceConfig where
  baseToken : Address
  minCoverage : ℕ
  maxCoverage : ℕ
  minPoolCapital : ℕ
  solvencyRatioBps : ℕ
  claimFeeBps : ℕ
  deriving DecidableEq

/-- The errors that are raised. -/
inductive InsuranceError where
  | unauthorized
  | policyNotFound
  | invalidCoverage
  | insufficientCapital
  | policyExpired
  | claimLimitExceeded
  | poolNotFound
  | insufficientSolvency
  | invalidPolicyStatus
  deriving DecidableEq

/-! ## Storage keys -/

inductive InsuranceKey where
  | owner
  | config
  | policy
  | policyCounter
  | claim
  | claimCounter
  | capitalPool
  | poolCounter
  | poolShare
  | userPolicies
  | poolPremiumEarned
  deriving DecidableEq

/-- The argument of a key. -/
@[reducible] def InsuranceKey.Key : InsuranceKey → Type
  | owner | config | policyCounter | claimCounter | poolCounter => Unit
  | policy | claim | capitalPool | poolPremiumEarned => ℕ
  | poolShare => Address × ℕ
  | userPolicies => Address

/-- The value stored under a key. -/
@[reducible] def InsuranceKey.Val : InsuranceKey → Type
  | owner => Address
  | config => InsuranceConfig
  | policy => Policy
  | claim => Claim
  | capitalPool => CapitalPool
  | poolShare => PoolShare
  | userPolicies => List ℕ
  | policyCounter | claimCounter | poolCounter | poolPremiumEarned => ℕ

instance InsuranceKey.decEqKey : (f : InsuranceKey) → DecidableEq f.Key
  | owner | config | policyCounter | claimCounter | poolCounter => inferInstanceAs (DecidableEq Unit)
  | policy | claim | capitalPool | poolPremiumEarned => inferInstanceAs (DecidableEq ℕ)
  | poolShare => inferInstanceAs (DecidableEq (Address × ℕ))
  | userPolicies => inferInstanceAs (DecidableEq Address)

/-- The storage of the contract; it publishes nothing. -/
abbrev layout : Layout where
  Field := InsuranceKey
  Key := InsuranceKey.Key
  Val := InsuranceKey.Val
  Note := Empty

abbrev State := Ledger layout

abbrev Fn : Type → Type := Call InsuranceError layout

/-- `env.storage().instance()` -/
abbrev get (f : InsuranceKey) (k : f.Key) : Fn (Option f.Val) := Call.load layout f k
abbrev set (f : InsuranceKey) (k : f.Key) (v : f.Val) : Fn Unit := Call.store layout f k v

/-! ## Internal helpers -/

/-- `get_config` -/
def getConfig : Fn InsuranceConfig := do unwrapOr (← get .config ()) .unauthorized

/-- `get_policy_or_panic` -/
def getPolicyOrPanic (policyId : ℕ) : Fn Policy := do unwrapOr (← get .policy policyId) .policyNotFound

/-- `get_pool_or_panic` -/
def getPoolOrPanic (poolId : ℕ) : Fn CapitalPool := do unwrapOr (← get .capitalPool poolId) .poolNotFound

/-- `get_next_policy_id` -/
def getNextPolicyId : Fn ℕ := do
  let current := (← get .policyCounter ()).getD 1
  set .policyCounter () (← addChecked 64 current 1)
  return current

/-- `get_next_claim_id` -/
def getNextClaimId : Fn ℕ := do
  let current := (← get .claimCounter ()).getD 1
  set .claimCounter () (← addChecked 64 current 1)
  return current

/-- `get_next_pool_id` -/
def getNextPoolId : Fn ℕ := do
  let current := (← get .poolCounter ()).getD 1
  set .poolCounter () (← addChecked 64 current 1)
  return current

/-! ## Functions -/

/-- `initialize` -/
def initializeInsurance (owner baseToken : Address)
    (minCoverage maxCoverage minPoolCapital solvencyRatioBps : ℕ) : Fn Unit := do
  requireAuth owner
  rejectIf (← get .owner ()).isSome .unauthorized
  set .owner () owner
  set .config ()
    { baseToken, minCoverage, maxCoverage, minPoolCapital, solvencyRatioBps, claimFeeBps := 100 }
  set .policyCounter () 0
  set .claimCounter () 0
  set .poolCounter () 0

/-- `purchase_policy` -/
def purchasePolicy (holder : Address) (policyType : PolicyType)
    (coverageAmount annualPremium durationLedgers maxClaimsPerYear deductible : ℕ)
    (oracleAddress : Address) (triggerParameter capitalPoolId : ℕ) : Fn ℕ := do
  let config ← getConfig
  let currentLedger := (← getEnv).sequence
  rejectIf (coverageAmount < config.minCoverage ∨ coverageAmount > config.maxCoverage) .invalidCoverage
  let pool ← getPoolOrPanic capitalPoolId
  rejectIf (pool.availableCapital < coverageAmount) .insufficientCapital
  let policyId ← getNextPolicyId
  let expirationLedger ← addChecked 32 currentLedger durationLedgers
  -- the first premium is not collected
  let availableCapital ← subChecked pool.availableCapital coverageAmount
  let reservedCapital ← addChecked 128 pool.reservedCapital coverageAmount
  set .policy policyId {
    policyId, policyType, holder, coverageAmount, annualPremium
    premiumFrequencyLedgers := 52560
    lastPremiumLedger := currentLedger
    expirationLedger, maxClaimsPerYear
    claimsFiledThisYear := 0
    deductible
    status := .active
    oracleAddress, triggerParameter, capitalPoolId }
  set .capitalPool capitalPoolId
    { pool with availableCapital, reservedCapital, policyIds := pool.policyIds ++ [policyId] }
  let userPolicies := (← get .userPolicies holder).getD []
  set .userPolicies holder (userPolicies ++ [policyId])
  return policyId

/-- `pay_premium` -/
def payPremium (payer : Address) (policyId premiumAmount : ℕ) : Fn Unit := do
  let policy ← getPolicyOrPanic policyId
  rejectIf (payer ≠ policy.holder) .unauthorized
  let currentLedger := (← getEnv).sequence
  rejectIf (currentLedger > policy.expirationLedger) .policyExpired
  let pool ← getPoolOrPanic policy.capitalPoolId
  let poolPremiumShare := (← mulChecked 128 premiumAmount pool.premiumShareBps) / 10000
  let currentEarned := (← get .poolPremiumEarned pool.poolId).getD 0
  set .poolPremiumEarned pool.poolId (← addChecked 128 currentEarned poolPremiumShare)
  set .policy policyId { policy with
    lastPremiumLedger := currentLedger
    status := .active }

/-- `cancel_policy` -/
def cancelPolicy (caller : Address) (policyId : ℕ) : Fn Unit := do
  let policy ← getPolicyOrPanic policyId
  rejectIf (caller ≠ policy.holder) .unauthorized
  let pool ← getPoolOrPanic policy.capitalPoolId
  let availableCapital ← addChecked 128 pool.availableCapital policy.coverageAmount
  let reservedCapital ← subChecked pool.reservedCapital policy.coverageAmount
  set .policy policyId { policy with status := .cancelled }
  set .capitalPool policy.capitalPoolId { pool with availableCapital, reservedCapital }

/-- What a claim on a policy pays: the oracle would say what was lost. -/
def Policy.payoutAmount (policy : Policy) : ℕ :=
  policy.coverageAmount - min policy.coverageAmount policy.deductible

/-- What a pool has to keep after it paid a claim. -/
def CapitalPool.requiredReserve (pool : CapitalPool) (config : InsuranceConfig) : ℕ :=
  pool.totalCapital * config.solvencyRatioBps / 10000

/-- `file_claim` -/
def fileClaim (claimant : Address) (policyId : ℕ) (oracleVerification : Bytes) : Fn ℕ := do
  let policy ← getPolicyOrPanic policyId
  rejectIf (policy.status ≠ .active) .invalidPolicyStatus
  let currentLedger := (← getEnv).sequence
  rejectIf (currentLedger > policy.expirationLedger) .policyExpired
  rejectIf (policy.claimsFiledThisYear ≥ policy.maxClaimsPerYear) .claimLimitExceeded
  let claimId ← getNextClaimId
  let claimsFiledThisYear ← addChecked 32 policy.claimsFiledThisYear 1
  let pool ← getPoolOrPanic policy.capitalPoolId
  let config ← getConfig
  let _ ← mulChecked 128 pool.totalCapital config.solvencyRatioBps
  let threshold ← addChecked 128 (pool.requiredReserve config) policy.payoutAmount
  rejectIf (pool.availableCapital < threshold) .insufficientSolvency
  let availableCapital ← subChecked pool.availableCapital policy.payoutAmount
  let totalClaimsPaid ← addChecked 128 pool.totalClaimsPaid policy.payoutAmount
  let reservedCapital ← subChecked pool.reservedCapital policy.coverageAmount
  set .claim claimId {
    claimId, policyId, claimant
    coverageRequested := policy.coverageAmount
    verifiedLoss := policy.coverageAmount
    deductibleApplied := min policy.coverageAmount policy.deductible
    payoutAmount := policy.payoutAmount
    status := 1
    oracleVerification
    filedLedger := currentLedger
    resolvedLedger := currentLedger
    settlementTxHash := none }
  set .policy policyId { policy with claimsFiledThisYear }
  set .capitalPool policy.capitalPoolId { pool with availableCapital, totalClaimsPaid, reservedCapital }
  return claimId

/-- `create_capital_pool` -/
def createCapitalPool (manager : Address) (minimumCapital premiumShareBps : ℕ) : Fn ℕ := do
  requireAuth manager
  let poolId ← getNextPoolId
  set .capitalPool poolId {
    poolId, manager
    totalCapital := 0
    availableCapital := 0
    reservedCapital := 0
    minimumCapital, premiumShareBps
    policyIds := []
    totalClaimsPaid := 0
    poolFeeBps := 500 }
  return poolId

/-- `contribute_to_pool` -/
def contributeToPool (underwriter : Address) (poolId amount : ℕ) : Fn Unit := do
  let pool ← getPoolOrPanic poolId
  let totalBefore := pool.totalCapital
  let totalCapital ← addChecked 128 pool.totalCapital amount
  let availableCapital ← addChecked 128 pool.availableCapital amount
  let shareBps ←
    if totalBefore > 0 then do
      let contributed ← subChecked totalCapital totalBefore
      divChecked (← mulChecked 128 contributed 10000) totalCapital
    else pure 10000
  let poolShare := (← get .poolShare (underwriter, poolId)).getD {
    underwriter, poolId
    capitalContributed := 0
    shareBps := 0
    unrealizedLosses := 0
    realizedLosses := 0
    rewardsEarned := 0 }
  let capitalContributed ← addChecked 128 poolShare.capitalContributed amount
  set .capitalPool poolId { pool with totalCapital, availableCapital }
  set .poolShare (underwriter, poolId) { poolShare with capitalContributed, shareBps }

/-! ## Operations -/

/-- The functions that move pools and policies. -/
inductive Op where
  | createCapitalPool (manager : Address) (minimumCapital premiumShareBps : ℕ)
  | contributeToPool (underwriter : Address) (poolId amount : ℕ)
  | purchasePolicy (holder : Address) (policyType : PolicyType)
      (coverageAmount annualPremium durationLedgers maxClaimsPerYear deductible : ℕ)
      (oracleAddress : Address) (triggerParameter capitalPoolId : ℕ)
  | payPremium (payer : Address) (policyId premiumAmount : ℕ)
  | cancelPolicy (caller : Address) (policyId : ℕ)
  | fileClaim (claimant : Address) (policyId : ℕ) (oracleVerification : Bytes)
  deriving DecidableEq

/-- Runs an operation; some return an id. -/
def exec : Op → Fn (Option ℕ)
  | .createCapitalPool a n m => return some (← createCapitalPool a n m)
  | .contributeToPool a p n => do contributeToPool a p n; return none
  | .purchasePolicy a k n m d c l o t p => return some (← purchasePolicy a k n m d c l o t p)
  | .payPremium a i n => do payPremium a i n; return none
  | .cancelPolicy a i => do cancelPolicy a i; return none
  | .fileClaim a i v => return some (← fileClaim a i v)

/-! ## Effects -/

instance : Reads getConfig := inferInstanceAs (Reads (_ >>= _))
instance (i : ℕ) : Reads (getPolicyOrPanic i) := inferInstanceAs (Reads (_ >>= _))
instance (p : ℕ) : Reads (getPoolOrPanic p) := inferInstanceAs (Reads (_ >>= _))

/-- The keys an operation can write. -/
@[reducible] def Op.writes : Op → List InsuranceKey
  | createCapitalPool .. => [.poolCounter, .capitalPool]
  | contributeToPool .. => [.capitalPool, .poolShare]
  | purchasePolicy .. => [.policyCounter, .policy, .capitalPool, .userPolicies]
  | payPremium .. => [.poolPremiumEarned, .policy]
  | cancelPolicy .. => [.policy, .capitalPool]
  | fileClaim .. => [.claimCounter, .claim, .policy, .capitalPool]

set_option synthInstance.maxSize 100000 in
/-- **Frame of the contract.** -/
theorem exec_writes (op : Op) : Writes layout op.writes (exec op) := by
  cases op <;>
    simp only [exec, Op.writes, createCapitalPool, getNextPoolId, contributeToPool, purchasePolicy,
      getNextPolicyId, payPremium, cancelPolicy, fileClaim, getNextClaimId] <;>
    infer_instance

/-- The id of the next pool. -/
def nextPoolId (s : State) : ℕ := (s.inst .poolCounter ()).getD 1

/-- The id of the next policy. -/
def nextPolicyId (s : State) : ℕ := (s.inst .policyCounter ()).getD 1

/-- The id of the next claim. -/
def nextClaimId (s : State) : ℕ := (s.inst .claimCounter ()).getD 1

section
variable {env : Env} {s s' : State} {a o : Address} {i p n m d c l t : ℕ} {k : PolicyType} {v : Bytes}
  {T : Trap InsuranceError → Prop}

@[simp] theorem post_getConfig {Q : InsuranceConfig → State → Prop} :
    Post getConfig Q env s ↔ ∀ x, s.inst .config () = some x → Q x s := by
  rw [getConfig, post_bind, post_load, post_unwrapOr]

@[simp] theorem post_getPolicyOrPanic {Q : Policy → State → Prop} :
    Post (getPolicyOrPanic i) Q env s ↔ ∀ x, s.inst .policy i = some x → Q x s := by
  rw [getPolicyOrPanic, post_bind, post_load, post_unwrapOr]

@[simp] theorem post_getPoolOrPanic {Q : CapitalPool → State → Prop} :
    Post (getPoolOrPanic p) Q env s ↔ ∀ x, s.inst .capitalPool p = some x → Q x s := by
  rw [getPoolOrPanic, post_bind, post_load, post_unwrapOr]

/-- What creating a pool leaves. -/
theorem created (h : (createCapitalPool a n m).run env s = .ok (p, s')) :
    s' = (s.put .poolCounter () (nextPoolId s + 1)).put .capitalPool (nextPoolId s)
      ⟨nextPoolId s, a, 0, 0, 0, n, m, [], 0, 500⟩ := by
  refine Post.of_run (m := createCapitalPool a n m) (Q := fun _ s' =>
    s' = (s.put .poolCounter () (nextPoolId s + 1)).put .capitalPool (nextPoolId s)
      ⟨nextPoolId s, a, 0, 0, 0, n, m, [], 0, 500⟩) ?_ h
  simp only [createCapitalPool, getNextPoolId, post_bind, post_requireAuth, post_load, post_addChecked,
    post_store, post_pure]
  intro _ _
  rfl

/-- What a contribution leaves. -/
theorem contributed (h : (contributeToPool a p n).run env s = .ok ((), s')) :
    ∃ y z, s.inst .capitalPool p = some y ∧ s' = (s.put .capitalPool p { y with
      totalCapital := y.totalCapital + n
      availableCapital := y.availableCapital + n }).put .poolShare (a, p) z := by
  refine Post.of_run (m := contributeToPool a p n) (Q := fun _ s' => ∃ y z,
    s.inst .capitalPool p = some y ∧ s' = (s.put .capitalPool p { y with
      totalCapital := y.totalCapital + n
      availableCapital := y.availableCapital + n }).put .poolShare (a, p) z) ?_ h
  simp only [contributeToPool, post_bind, post_getPoolOrPanic, post_addChecked, post_ite, post_subChecked,
    post_mulChecked, post_divChecked, post_pure, post_load, post_store]
  intro y hy _ _
  exact ⟨fun _ _ _ _ _ => ⟨y, _, hy, rfl⟩, fun _ _ => ⟨y, _, hy, rfl⟩⟩

/-- What a purchase leaves. -/
theorem purchased (h : (purchasePolicy a k n m d c l o t p).run env s = .ok (i, s')) :
    ∃ y e u, s.inst .capitalPool p = some y ∧ n ≤ y.availableCapital ∧
      s' = (((s.put .policyCounter () (nextPolicyId s + 1)).put .policy (nextPolicyId s)
        ⟨nextPolicyId s, k, a, n, m, 52560, env.sequence, e, c, 0, l, .active, o, t, p⟩).put .capitalPool p
        { y with
          availableCapital := y.availableCapital - n
          reservedCapital := y.reservedCapital + n
          policyIds := y.policyIds ++ [nextPolicyId s] }).put .userPolicies a u := by
  refine Post.of_run (m := purchasePolicy a k n m d c l o t p) (Q := fun _ s' => ∃ y e u,
    s.inst .capitalPool p = some y ∧ n ≤ y.availableCapital ∧
      s' = (((s.put .policyCounter () (nextPolicyId s + 1)).put .policy (nextPolicyId s)
        ⟨nextPolicyId s, k, a, n, m, 52560, env.sequence, e, c, 0, l, .active, o, t, p⟩).put .capitalPool p
        { y with
          availableCapital := y.availableCapital - n
          reservedCapital := y.reservedCapital + n
          policyIds := y.policyIds ++ [nextPolicyId s] }).put .userPolicies a u) ?_ h
  simp only [purchasePolicy, getNextPolicyId, post_bind, post_getConfig, post_getEnv, post_rejectIf,
    post_getPoolOrPanic, post_load, post_addChecked, post_subChecked, post_store, post_pure, not_lt]
  intro _ _ _ y hy hle _ _ _ _
  exact ⟨y, _, _, hy, hle, rfl⟩

/-- What a premium leaves. -/
theorem premiumPaid (h : (payPremium a i n).run env s = .ok ((), s')) :
    ∃ x y e, s.inst .policy i = some x ∧ s.inst .capitalPool x.capitalPoolId = some y ∧
      s' = (s.put .poolPremiumEarned y.poolId e).put .policy i { x with
        lastPremiumLedger := env.sequence
        status := .active } := by
  refine Post.of_run (m := payPremium a i n) (Q := fun _ s' => ∃ x y e, s.inst .policy i = some x ∧
    s.inst .capitalPool x.capitalPoolId = some y ∧
      s' = (s.put .poolPremiumEarned y.poolId e).put .policy i { x with
        lastPremiumLedger := env.sequence
        status := .active }) ?_ h
  simp only [payPremium, post_bind, post_getPolicyOrPanic, post_rejectIf, post_getEnv, post_getPoolOrPanic,
    post_mulChecked, post_load, post_addChecked, post_store]
  intro x hx _ _ y hy _ _
  exact ⟨x, y, _, hx, hy, rfl⟩

/-- What a cancellation leaves. -/
theorem cancelled (h : (cancelPolicy a i).run env s = .ok ((), s')) :
    ∃ x y, s.inst .policy i = some x ∧ s.inst .capitalPool x.capitalPoolId = some y ∧
      x.coverageAmount ≤ y.reservedCapital ∧
      s' = (s.put .policy i { x with status := .cancelled }).put .capitalPool x.capitalPoolId { y with
        availableCapital := y.availableCapital + x.coverageAmount
        reservedCapital := y.reservedCapital - x.coverageAmount } := by
  refine Post.of_run (m := cancelPolicy a i) (Q := fun _ s' => ∃ x y, s.inst .policy i = some x ∧
    s.inst .capitalPool x.capitalPoolId = some y ∧ x.coverageAmount ≤ y.reservedCapital ∧
      s' = (s.put .policy i { x with status := .cancelled }).put .capitalPool x.capitalPoolId { y with
        availableCapital := y.availableCapital + x.coverageAmount
        reservedCapital := y.reservedCapital - x.coverageAmount }) ?_ h
  simp only [cancelPolicy, post_bind, post_getPolicyOrPanic, post_rejectIf, post_getPoolOrPanic,
    post_addChecked, post_subChecked, post_store]
  intro x hx _ y hy _ hle
  exact ⟨x, y, hx, hy, hle, rfl⟩

/-- What a claim leaves. -/
theorem claimed (h : (fileClaim a i v).run env s = .ok (n, s')) :
    ∃ x y g z, s.inst .policy i = some x ∧ x.status = .active ∧
      s.inst .capitalPool x.capitalPoolId = some y ∧ s.inst .config () = some g ∧
      y.requiredReserve g + x.payoutAmount ≤ y.availableCapital ∧ x.coverageAmount ≤ y.reservedCapital ∧
      s' = (((s.put .claimCounter () (nextClaimId s + 1)).put .claim (nextClaimId s) z).put .policy i
        { x with claimsFiledThisYear := x.claimsFiledThisYear + 1 }).put .capitalPool x.capitalPoolId
        { y with
          availableCapital := y.availableCapital - x.payoutAmount
          totalClaimsPaid := y.totalClaimsPaid + x.payoutAmount
          reservedCapital := y.reservedCapital - x.coverageAmount } := by
  refine Post.of_run (m := fileClaim a i v) (Q := fun _ s' => ∃ x y g z, s.inst .policy i = some x ∧
    x.status = .active ∧ s.inst .capitalPool x.capitalPoolId = some y ∧ s.inst .config () = some g ∧
      y.requiredReserve g + x.payoutAmount ≤ y.availableCapital ∧ x.coverageAmount ≤ y.reservedCapital ∧
      s' = (((s.put .claimCounter () (nextClaimId s + 1)).put .claim (nextClaimId s) z).put .policy i
        { x with claimsFiledThisYear := x.claimsFiledThisYear + 1 }).put .capitalPool x.capitalPoolId
        { y with
          availableCapital := y.availableCapital - x.payoutAmount
          totalClaimsPaid := y.totalClaimsPaid + x.payoutAmount
          reservedCapital := y.reservedCapital - x.coverageAmount }) ?_ h
  simp only [fileClaim, getNextClaimId, post_bind, post_getPolicyOrPanic, post_rejectIf, post_getEnv,
    post_load, post_addChecked, post_store, post_getPoolOrPanic, post_getConfig, post_mulChecked,
    post_subChecked, post_pure, not_not, not_lt]
  intro x hx hactive _ _ _ _ y hy g hg _ _ hsolvent _ _ hle
  exact ⟨x, y, g, _, hx, hactive, hy, hg, hsolvent, hle, rfl⟩

end

end ParametricInsurance
