/-
  DAOTreasury — funds and allocations (`src/dao_treasury.rs`).

  Funds are filled by deposits.  An allocation from a fund is requested, approved by the
  signers of the treasury, and executed; the transfer itself is not implemented.  The
  distribution of fees is in `Treasury/Fees.lean`.

  `env.invoker()` is an argument of the functions here.  All entries are in the instance
  store.
-/
import AuditTransparency.Soroban.Script
import AuditTransparency.Soroban.Writes

namespace DAOTreasury

open Soroban
open Soroban.Call

/-! ## Data -/

structure Fund where
  name : String
  balance : ℕ
  budgetLimit : ℕ
  budgetUsed : ℕ
  periodLedgers : ℕ
  lastResetLedger : ℕ
  deriving DecidableEq

structure Allocation where
  allocationId : ℕ
  recipient : Address
  fundName : String
  amount : ℕ
  purpose : String
  approved : Bool
  approvalCount : ℕ
  requiredApprovals : ℕ
  createdLedger : ℕ
  executionLedger : ℕ
  deriving DecidableEq

/-- A rule of the fee distribution: the part of a recipient in basis points. -/
structure FeeDistribution where
  recipient : Address
  percentageBps : ℕ
  isFund : Bool
  deriving DecidableEq

structure TreasuryConfig where
  owner : Address
  baseToken : Address
  signers : List Address
  requiredSignatures : ℕ
  feeDistribution : List FeeDistribution
  deriving DecidableEq

inductive TreasuryError where
  | unauthorized
  | fundNotFound
  | insufficientBalance
  | budgetExceeded
  | allocationNotFound
  | allocationNotApproved
  | invalidSigner
  | duplicateSignature
  | invalidFeeDistribution
  | invalidAmount
  deriving DecidableEq

/-! ## Storage keys -/

inductive TreasuryKey where
  | owner
  | config
  | fund
  | fundNames
  | allocation
  | allocationCounter
  | allocationApproval
  | totalFeesCollected
  | feeShareReceived
  deriving DecidableEq

/-- The argument of a key. -/
@[reducible] def TreasuryKey.Key : TreasuryKey → Type
  | owner | config | fundNames | allocationCounter | totalFeesCollected => Unit
  | fund => String
  | allocation => ℕ
  | allocationApproval => ℕ × Address
  | feeShareReceived => Address

/-- The value stored under a key. -/
@[reducible] def TreasuryKey.Val : TreasuryKey → Type
  | owner => Address
  | config => TreasuryConfig
  | fund => Fund
  | fundNames => List String
  | allocation => Allocation
  | allocationCounter | totalFeesCollected | feeShareReceived => ℕ
  | allocationApproval => Bool

instance TreasuryKey.decEqKey : (f : TreasuryKey) → DecidableEq f.Key
  | owner | config | fundNames | allocationCounter | totalFeesCollected => inferInstanceAs (DecidableEq Unit)
  | fund => inferInstanceAs (DecidableEq String)
  | allocation => inferInstanceAs (DecidableEq ℕ)
  | allocationApproval => inferInstanceAs (DecidableEq (ℕ × Address))
  | feeShareReceived => inferInstanceAs (DecidableEq Address)

/-- The storage of the contract; it publishes nothing. -/
abbrev layout : Layout where
  Field := TreasuryKey
  Key := TreasuryKey.Key
  Val := TreasuryKey.Val
  Note := Empty

abbrev State := Ledger layout

abbrev Fn : Type → Type := Call TreasuryError layout

/-- `env.storage().instance()` -/
abbrev get (f : TreasuryKey) (k : f.Key) : Fn (Option f.Val) := Call.load layout f k
abbrev set (f : TreasuryKey) (k : f.Key) (v : f.Val) : Fn Unit := Call.store layout f k v

/-! ## Internal helpers -/

/-- `get_owner` -/
def getOwner : Fn Address := do unwrapOr (← get .owner ()) .unauthorized

/-- `get_config` -/
def getConfig : Fn TreasuryConfig := do unwrapOr (← get .config ()) .unauthorized

/-- `get_fund_or_panic` -/
def getFundOrPanic (fundName : String) : Fn Fund := do unwrapOr (← get .fund fundName) .fundNotFound

/-- `get_allocation_or_panic` -/
def getAllocationOrPanic (allocationId : ℕ) : Fn Allocation := do
  unwrapOr (← get .allocation allocationId) .allocationNotFound

/-- `get_next_allocation_id` -/
def getNextAllocationId : Fn ℕ := do
  let current := (← get .allocationCounter ()).getD 1
  set .allocationCounter () (← addChecked 32 current 1)
  return current

/-! ## Functions -/

/-- `initialize` -/
def initializeTreasury (owner baseToken : Address) (signers : List Address) (requiredSignatures : ℕ) :
    Fn Unit := do
  requireAuth owner
  rejectIf (← get .owner ()).isSome .unauthorized
  set .owner () owner
  set .config () { owner, baseToken, signers, requiredSignatures, feeDistribution := [] }
  set .allocationCounter () 0
  set .fundNames () []

/-- `create_fund` -/
def createFund (fundName : String) (budgetLimit periodLedgers : ℕ) : Fn Unit := do
  let owner ← getOwner
  requireAuth owner
  rejectIf (← get .fund fundName).isSome .fundNotFound
  let lastResetLedger := (← getEnv).sequence
  set .fund fundName
    { name := fundName, balance := 0, budgetLimit, budgetUsed := 0, periodLedgers, lastResetLedger }
  let fundNames := (← get .fundNames ()).getD []
  set .fundNames () (fundNames ++ [fundName])

/-- `deposit` -/
def deposit (fundName : String) (amount : ℕ) : Fn Unit := do
  rejectIf (amount = 0) .invalidAmount
  let fund ← getFundOrPanic fundName
  let balance ← addChecked 128 fund.balance amount
  set .fund fundName { fund with balance }

/-- `request_allocation` -/
def requestAllocation (recipient : Address) (fundName : String) (amount : ℕ) (purpose : String) : Fn ℕ := do
  let config ← getConfig
  rejectIf (amount = 0 ∨ amount > 1000000000000000) .invalidAmount
  let allocationId ← getNextAllocationId
  let createdLedger := (← getEnv).sequence
  set .allocation allocationId {
    allocationId, recipient, fundName, amount, purpose
    approved := false
    approvalCount := 0
    requiredApprovals := config.requiredSignatures
    createdLedger
    executionLedger := 0 }
  return allocationId

/-- `approve_allocation` -/
def approveAllocation (invoker : Address) (allocationId : ℕ) : Fn Unit := do
  let config ← getConfig
  rejectIf (invoker ∉ config.signers) .invalidSigner
  rejectIf ((← get .allocationApproval (allocationId, invoker)).getD false = true) .duplicateSignature
  let allocation ← getAllocationOrPanic allocationId
  set .allocationApproval (allocationId, invoker) true
  let approvalCount ← addChecked 32 allocation.approvalCount 1
  set .allocation allocationId { allocation with
    approvalCount
    approved := if approvalCount ≥ allocation.requiredApprovals then true else allocation.approved }

/-- `execute_allocation` -/
def executeAllocation (allocationId : ℕ) : Fn Unit := do
  let allocation ← getAllocationOrPanic allocationId
  rejectIf (allocation.approved = false) .allocationNotApproved
  let fund ← getFundOrPanic allocation.fundName
  let used ← addChecked 128 allocation.amount fund.budgetUsed
  rejectIf (used > fund.budgetLimit) .budgetExceeded
  rejectIf (allocation.amount > fund.balance) .insufficientBalance
  let balance ← subChecked fund.balance allocation.amount
  let budgetUsed ← addChecked 128 fund.budgetUsed allocation.amount
  let executionLedger := (← getEnv).sequence
  set .fund allocation.fundName { fund with balance, budgetUsed }
  set .allocation allocationId { allocation with executionLedger }

/-! ## Operations -/

/-- The functions that move funds and allocations. -/
inductive Op where
  | createFund (fundName : String) (budgetLimit periodLedgers : ℕ)
  | deposit (fundName : String) (amount : ℕ)
  | requestAllocation (recipient : Address) (fundName : String) (amount : ℕ) (purpose : String)
  | approveAllocation (invoker : Address) (allocationId : ℕ)
  | executeAllocation (allocationId : ℕ)
  deriving DecidableEq

/-- Runs an operation; a request returns an id. -/
def exec : Op → Fn (Option ℕ)
  | .createFund f n m => do createFund f n m; return none
  | .deposit f n => do deposit f n; return none
  | .requestAllocation a f n p => return some (← requestAllocation a f n p)
  | .approveAllocation a i => do approveAllocation a i; return none
  | .executeAllocation i => do executeAllocation i; return none

/-! ## Effects -/

instance : Reads getOwner := inferInstanceAs (Reads (_ >>= _))
instance : Reads getConfig := inferInstanceAs (Reads (_ >>= _))
instance (f : String) : Reads (getFundOrPanic f) := inferInstanceAs (Reads (_ >>= _))
instance (i : ℕ) : Reads (getAllocationOrPanic i) := inferInstanceAs (Reads (_ >>= _))

/-- The keys an operation can write. -/
@[reducible] def Op.writes : Op → List TreasuryKey
  | createFund .. => [.fund, .fundNames]
  | deposit .. => [.fund]
  | requestAllocation .. => [.allocationCounter, .allocation]
  | approveAllocation .. => [.allocationApproval, .allocation]
  | executeAllocation .. => [.fund, .allocation]

set_option synthInstance.maxSize 100000 in
/-- **Frame of the contract.** -/
theorem exec_writes (op : Op) : Writes layout op.writes (exec op) := by
  cases op <;>
    simp only [exec, Op.writes, createFund, deposit, requestAllocation, getNextAllocationId,
      approveAllocation, executeAllocation] <;>
    infer_instance

/-- The id of the next allocation. -/
def nextId (s : State) : ℕ := (s.inst .allocationCounter ()).getD 1

section
variable {env : Env} {s s' : State} {a : Address} {f p : String} {i n m : ℕ}

@[simp] theorem post_getOwner {Q : Address → State → Prop} :
    Post getOwner Q env s ↔ ∀ a, s.inst .owner () = some a → Q a s := by
  rw [getOwner, post_bind, post_load, post_unwrapOr]

@[simp] theorem post_getConfig {Q : TreasuryConfig → State → Prop} :
    Post getConfig Q env s ↔ ∀ c, s.inst .config () = some c → Q c s := by
  rw [getConfig, post_bind, post_load, post_unwrapOr]

@[simp] theorem post_getFundOrPanic {Q : Fund → State → Prop} :
    Post (getFundOrPanic f) Q env s ↔ ∀ x, s.inst .fund f = some x → Q x s := by
  rw [getFundOrPanic, post_bind, post_load, post_unwrapOr]

@[simp] theorem post_getAllocationOrPanic {Q : Allocation → State → Prop} :
    Post (getAllocationOrPanic i) Q env s ↔ ∀ x, s.inst .allocation i = some x → Q x s := by
  rw [getAllocationOrPanic, post_bind, post_load, post_unwrapOr]

/-- What creating a fund leaves. -/
theorem created (h : (createFund f n m).run env s = .ok ((), s')) :
    s.inst .fund f = none ∧ ∃ l, s' = (s.put .fund f ⟨f, 0, n, 0, m, env.sequence⟩).put .fundNames () l := by
  refine Post.of_run (m := createFund f n m) (Q := fun _ s' => s.inst .fund f = none ∧
    ∃ l, s' = (s.put .fund f ⟨f, 0, n, 0, m, env.sequence⟩).put .fundNames () l) ?_ h
  simp only [createFund, post_bind, post_getOwner, post_requireAuth, post_load, post_rejectIf, post_getEnv,
    post_store, Bool.not_eq_true, Option.isSome_eq_false_iff, Option.isNone_iff_eq_none]
  intro _ _ _ hnone
  exact ⟨hnone, _, rfl⟩

/-- What a deposit leaves. -/
theorem deposited (h : (deposit f n).run env s = .ok ((), s')) :
    ∃ x, s.inst .fund f = some x ∧ s' = s.put .fund f { x with balance := x.balance + n } := by
  refine Post.of_run (m := deposit f n) (Q := fun _ s' => ∃ x, s.inst .fund f = some x ∧
    s' = s.put .fund f { x with balance := x.balance + n }) ?_ h
  simp only [deposit, post_bind, post_rejectIf, post_getFundOrPanic, post_addChecked, post_store]
  intro _ x hx _
  exact ⟨x, hx, rfl⟩

/-- What a request leaves. -/
theorem requested (h : (requestAllocation a f n p).run env s = .ok (i, s')) :
    n ≠ 0 ∧ ∃ m, s' = (s.put .allocationCounter () (nextId s + 1)).put .allocation (nextId s)
      ⟨nextId s, a, f, n, p, false, 0, m, env.sequence, 0⟩ := by
  refine Post.of_run (m := requestAllocation a f n p) (Q := fun _ s' => n ≠ 0 ∧
    ∃ m, s' = (s.put .allocationCounter () (nextId s + 1)).put .allocation (nextId s)
      ⟨nextId s, a, f, n, p, false, 0, m, env.sequence, 0⟩) ?_ h
  simp only [requestAllocation, getNextAllocationId, post_bind, post_getConfig, post_rejectIf, post_load,
    post_addChecked, post_getEnv, post_store, post_pure, not_or]
  intro _ _ hn _
  exact ⟨hn.1, _, rfl⟩

/-- What an approval leaves. -/
theorem approved (h : (approveAllocation a i).run env s = .ok ((), s')) :
    ∃ c x, s.inst .config () = some c ∧ a ∈ c.signers ∧ s.inst .allocation i = some x ∧
      s.inst .allocationApproval (i, a) ≠ some true ∧
      s' = (s.put .allocationApproval (i, a) true).put .allocation i { x with
        approvalCount := x.approvalCount + 1
        approved := if x.approvalCount + 1 ≥ x.requiredApprovals then true else x.approved } := by
  refine Post.of_run (m := approveAllocation a i) (Q := fun _ s' => ∃ c x, s.inst .config () = some c ∧
    a ∈ c.signers ∧ s.inst .allocation i = some x ∧ s.inst .allocationApproval (i, a) ≠ some true ∧
      s' = (s.put .allocationApproval (i, a) true).put .allocation i { x with
        approvalCount := x.approvalCount + 1
        approved := if x.approvalCount + 1 ≥ x.requiredApprovals then true else x.approved }) ?_ h
  simp only [approveAllocation, post_bind, post_getConfig, post_rejectIf, post_load,
    post_getAllocationOrPanic,
    post_store, post_addChecked, not_not]
  intro c hc hsigner hnew x hx _
  exact ⟨c, x, hc, hsigner, hx, fun hold => hnew (by rw [hold]; rfl), rfl⟩

/-- What an execution leaves. -/
theorem executed (h : (executeAllocation i).run env s = .ok ((), s')) :
    ∃ x y, s.inst .allocation i = some x ∧ x.approved = true ∧ s.inst .fund x.fundName = some y ∧
      x.amount + y.budgetUsed ≤ y.budgetLimit ∧ x.amount ≤ y.balance ∧
      s' = (s.put .fund x.fundName { y with
        balance := y.balance - x.amount
        budgetUsed := y.budgetUsed + x.amount }).put .allocation i
          { x with executionLedger := env.sequence } := by
  refine Post.of_run (m := executeAllocation i) (Q := fun _ s' => ∃ x y, s.inst .allocation i = some x ∧
    x.approved = true ∧ s.inst .fund x.fundName = some y ∧ x.amount + y.budgetUsed ≤ y.budgetLimit ∧
      x.amount ≤ y.balance ∧ s' = (s.put .fund x.fundName { y with
        balance := y.balance - x.amount
        budgetUsed := y.budgetUsed + x.amount }).put .allocation i
          { x with executionLedger := env.sequence }) ?_ h
  simp only [executeAllocation, post_bind, post_getAllocationOrPanic, post_rejectIf, post_getFundOrPanic,
    post_addChecked, post_subChecked, post_getEnv, post_store, not_lt, Bool.not_eq_false]
  intro x hx happ y hy _ hlimit hbal _ _
  exact ⟨x, y, hx, happ, hy, hlimit, hbal, rfl⟩

end

end DAOTreasury
