/-
  DAOGovernance — proposals, votes and delegation (`src/dao_governance.rs`).

  A proposal is voted on between its start and its end, and executed after its timelock.
  Voters use the power they have of their own (`base_power`) and what others have
  delegated to them; base powers are not set by this contract.

  `env.invoker()` is an argument of the functions here.  All entries are in the instance
  store.
-/
import AuditTransparency.Soroban.Script
import AuditTransparency.Soroban.Writes

namespace DAOGovernance

open Soroban
open Soroban.Call

/-! ## Data -/

inductive ProposalType where
  | parameterChange
  | featurePriority
  | treasurySpending
  | emergencyPause
  | contractUpgrade
  deriving DecidableEq

inductive ProposalStatus where
  | active
  | passed
  | defeated
  | executed
  | cancelled
  | executionFailed
  deriving DecidableEq

inductive VoteChoice where
  | for_
  | against
  | abstain
  deriving DecidableEq

structure Proposal where
  proposalId : ℕ
  proposalType : ProposalType
  proposer : Address
  title : String
  description : String
  parameters : Bytes
  startLedger : ℕ
  endLedger : ℕ
  executionLedger : ℕ
  votesFor : ℕ
  votesAgainst : ℕ
  votesAbstain : ℕ
  status : ProposalStatus
  quorumBps : ℕ
  approvalThresholdBps : ℕ
  cancellable : Bool
  deriving DecidableEq

structure VotingPower where
  user : Address
  basePower : ℕ
  delegatedPower : ℕ
  delegatedTo : Option Address
  delegationLedger : ℕ
  deriving DecidableEq

structure Vote where
  voter : Address
  proposalId : ℕ
  choice : VoteChoice
  power : ℕ
  voteLedger : ℕ
  deriving DecidableEq

structure GovernanceConfig where
  token : Address
  votingDelay : ℕ
  votingPeriod : ℕ
  timelockDelay : ℕ
  defaultQuorumBps : ℕ
  defaultApprovalThresholdBps : ℕ
  proposalFee : ℕ
  deriving DecidableEq

inductive GovernanceError where
  | unauthorized
  | proposalNotFound
  | votingClosed
  | alreadyVoted
  | insufficientVotingPower
  | timelockNotPassed
  | invalidStatus
  | proposalFailed
  | cannotDelegateToSelf
  | noVotingPower
  | votingNotStarted
  deriving DecidableEq

/-! ## Storage keys -/

inductive GovernanceKey where
  | owner
  | config
  | proposalCounter
  | proposal
  | votingPower
  | proposalVote
  | hasVoted
  deriving DecidableEq

/-- The argument of a key. -/
@[reducible] def GovernanceKey.Key : GovernanceKey → Type
  | owner | config | proposalCounter => Unit
  | proposal => ℕ
  | votingPower => Address
  | proposalVote | hasVoted => Address × ℕ

/-- The value stored under a key. -/
@[reducible] def GovernanceKey.Val : GovernanceKey → Type
  | owner => Address
  | config => GovernanceConfig
  | proposalCounter => ℕ
  | proposal => Proposal
  | votingPower => VotingPower
  | proposalVote => Vote
  | hasVoted => Bool

instance GovernanceKey.decEqKey : (f : GovernanceKey) → DecidableEq f.Key
  | owner | config | proposalCounter => inferInstanceAs (DecidableEq Unit)
  | proposal => inferInstanceAs (DecidableEq ℕ)
  | votingPower => inferInstanceAs (DecidableEq Address)
  | proposalVote | hasVoted => inferInstanceAs (DecidableEq (Address × ℕ))

/-- The storage of the contract; it publishes nothing. -/
abbrev layout : Layout where
  Field := GovernanceKey
  Key := GovernanceKey.Key
  Val := GovernanceKey.Val
  Note := Empty

abbrev State := Ledger layout

abbrev Fn : Type → Type := Call GovernanceError layout

/-- `env.storage().instance()` -/
abbrev get (f : GovernanceKey) (k : f.Key) : Fn (Option f.Val) := Call.load layout f k
abbrev set (f : GovernanceKey) (k : f.Key) (v : f.Val) : Fn Unit := Call.store layout f k v

/-! ## Internal helpers -/

/-- `get_owner` -/
def getOwner : Fn Address := do unwrapOr (← get .owner ()) .unauthorized

/-- `get_config` -/
def getConfig : Fn GovernanceConfig := do unwrapOr (← get .config ()) .unauthorized

/-- `get_voting_power` -/
def getVotingPower (user : Address) : Fn VotingPower := do
  return (← get .votingPower user).getD
    { user, basePower := 0, delegatedPower := 0, delegatedTo := none, delegationLedger := 0 }

/-- `get_proposal_or_panic` -/
def getProposalOrPanic (proposalId : ℕ) : Fn Proposal := do
  unwrapOr (← get .proposal proposalId) .proposalNotFound

/-- `get_next_proposal_id` -/
def getNextProposalId : Fn ℕ := do
  let current := (← get .proposalCounter ()).getD 1
  set .proposalCounter () (← addChecked 32 current 1)
  return current

/-! ## Functions -/

/-- `initialize` -/
def initializeGovernance (owner : Address) (config : GovernanceConfig) : Fn Unit := do
  requireAuth owner
  rejectIf (← get .owner ()).isSome .unauthorized
  set .owner () owner
  set .config () config
  set .proposalCounter () 0

/-- `propose` -/
def propose (invoker : Address) (proposalType : ProposalType) (title description : String)
    (parameters : Bytes) (quorumBps approvalThresholdBps : ℕ) : Fn ℕ := do
  let config ← getConfig
  let votingPower ← getVotingPower invoker
  let power ← addChecked 128 votingPower.basePower votingPower.delegatedPower
  rejectIf (power = 0) .insufficientVotingPower
  let proposalId ← getNextProposalId
  let currentLedger := (← getEnv).sequence
  let startLedger ← addChecked 32 currentLedger config.votingDelay
  let endLedger ← addChecked 32 startLedger config.votingPeriod
  let executionLedger ← addChecked 32 endLedger config.timelockDelay
  set .proposal proposalId {
    proposalId, proposalType
    proposer := invoker
    title, description, parameters, startLedger, endLedger, executionLedger
    votesFor := 0
    votesAgainst := 0
    votesAbstain := 0
    status := .active
    quorumBps := if quorumBps > 0 then quorumBps else config.defaultQuorumBps
    approvalThresholdBps :=
      if approvalThresholdBps > 0 then approvalThresholdBps else config.defaultApprovalThresholdBps
    cancellable := true }
  return proposalId

/-- The proposal with more votes for a choice. -/
def addVotes (proposal : Proposal) (totalPower : ℕ) : VoteChoice → Fn Proposal
  | .for_ => do return { proposal with votesFor := ← addChecked 128 proposal.votesFor totalPower }
  | .against => do return { proposal with votesAgainst := ← addChecked 128 proposal.votesAgainst totalPower }
  | .abstain => do return { proposal with votesAbstain := ← addChecked 128 proposal.votesAbstain totalPower }

/-- `vote` -/
def vote (invoker : Address) (proposalId : ℕ) (choice : VoteChoice) : Fn Unit := do
  let proposal ← getProposalOrPanic proposalId
  let _ ← getConfig
  let currentLedger := (← getEnv).sequence
  rejectIf (currentLedger < proposal.startLedger) .votingNotStarted
  rejectIf (currentLedger > proposal.endLedger) .votingClosed
  rejectIf ((← get .hasVoted (invoker, proposalId)).getD false = true) .alreadyVoted
  let votingPower ← getVotingPower invoker
  let totalPower ← addChecked 128 votingPower.basePower votingPower.delegatedPower
  rejectIf (totalPower = 0) .insufficientVotingPower
  set .proposalVote (invoker, proposalId)
    { voter := invoker, proposalId, choice, power := totalPower, voteLedger := currentLedger }
  set .hasVoted (invoker, proposalId) true
  let proposal ← addVotes proposal totalPower choice
  set .proposal proposalId proposal

/-- `delegate` -/
def delegate (invoker delegateTo : Address) : Fn Unit := do
  rejectIf (invoker = delegateTo) .cannotDelegateToSelf
  let votingPower ← getVotingPower invoker
  rejectIf (votingPower.basePower = 0) .noVotingPower
  let now := (← getEnv).sequence
  let votingPower := { votingPower with delegatedTo := some delegateTo, delegationLedger := now }
  let delegatePower ← getVotingPower delegateTo
  let delegatedPower ← addChecked 128 delegatePower.delegatedPower votingPower.basePower
  set .votingPower invoker votingPower
  set .votingPower delegateTo { delegatePower with delegatedPower }

/-- `undelegate` -/
def undelegate (invoker : Address) : Fn Unit := do
  let votingPower ← getVotingPower invoker
  ifSome votingPower.delegatedTo fun delegate => do
    let delegatePower ← getVotingPower delegate
    let delegatedPower ← subChecked delegatePower.delegatedPower votingPower.basePower
    set .votingPower delegate { delegatePower with delegatedPower }
  set .votingPower invoker { votingPower with delegatedTo := none }

/-- `proposal_passed` -/
def proposalPassed (proposalId : ℕ) : Fn Bool := do
  let proposal ← getProposalOrPanic proposalId
  let currentLedger := (← getEnv).sequence
  if currentLedger ≤ proposal.endLedger then return false
  let decided ← addChecked 128 proposal.votesFor proposal.votesAgainst
  let _ ← addChecked 128 decided proposal.votesAbstain
  return decide (proposal.votesFor > proposal.votesAgainst)

/-- `execute_proposal` -/
def executeProposal (proposalId : ℕ) : Fn Unit := do
  let proposal ← getProposalOrPanic proposalId
  let currentLedger := (← getEnv).sequence
  rejectIf (currentLedger < proposal.executionLedger) .timelockNotPassed
  rejectIf ((← proposalPassed proposalId) = false) .proposalFailed
  set .proposal proposalId { proposal with status := .executed }

/-- `cancel_proposal` -/
def cancelProposal (invoker : Address) (proposalId : ℕ) : Fn Unit := do
  let proposal ← getProposalOrPanic proposalId
  let owner ← getOwner
  rejectIf (invoker ≠ proposal.proposer ∧ invoker ≠ owner) .unauthorized
  rejectIf (proposal.cancellable = false) .invalidStatus
  set .proposal proposalId { proposal with status := .cancelled }

/-- `update_config` -/
def updateConfig (votingDelay votingPeriod timelockDelay defaultQuorumBps defaultApprovalThresholdBps
    proposalFee : Option ℕ) : Fn Unit := do
  let owner ← getOwner
  requireAuth owner
  let config ← getConfig
  set .config () { config with
    votingDelay := votingDelay.getD config.votingDelay
    votingPeriod := votingPeriod.getD config.votingPeriod
    timelockDelay := timelockDelay.getD config.timelockDelay
    defaultQuorumBps := defaultQuorumBps.getD config.defaultQuorumBps
    defaultApprovalThresholdBps := defaultApprovalThresholdBps.getD config.defaultApprovalThresholdBps
    proposalFee := proposalFee.getD config.proposalFee }

/-! ## Operations -/

/-- The functions that can write, but for `initialize`. -/
inductive Op where
  | propose (invoker : Address) (proposalType : ProposalType) (title description : String)
      (parameters : Bytes) (quorumBps approvalThresholdBps : ℕ)
  | vote (invoker : Address) (proposalId : ℕ) (choice : VoteChoice)
  | delegate (invoker delegateTo : Address)
  | undelegate (invoker : Address)
  | executeProposal (proposalId : ℕ)
  | cancelProposal (invoker : Address) (proposalId : ℕ)
  | updateConfig (votingDelay votingPeriod timelockDelay defaultQuorumBps defaultApprovalThresholdBps
      proposalFee : Option ℕ)
  deriving DecidableEq

/-- Runs an operation; `propose` returns an id. -/
def exec : Op → Fn (Option ℕ)
  | .propose a k t d b n m => return some (← propose a k t d b n m)
  | .vote a i c => do vote a i c; return none
  | .delegate a b => do delegate a b; return none
  | .undelegate a => do undelegate a; return none
  | .executeProposal i => do executeProposal i; return none
  | .cancelProposal a i => do cancelProposal a i; return none
  | .updateConfig a b c d e f => do updateConfig a b c d e f; return none

/-! ## Effects -/

instance : Reads getOwner := inferInstanceAs (Reads (_ >>= _))
instance : Reads getConfig := inferInstanceAs (Reads (_ >>= _))
instance (a : Address) : Reads (getVotingPower a) := inferInstanceAs (Reads (_ >>= _))
instance (i : ℕ) : Reads (getProposalOrPanic i) := inferInstanceAs (Reads (_ >>= _))

instance (x : Proposal) (n : ℕ) (c : VoteChoice) : Reads (addVotes x n c) := by
  cases c <;> exact inferInstanceAs (Reads (_ >>= _))

instance (i : ℕ) : Reads (proposalPassed i) := by
  unfold proposalPassed
  infer_instance

/-- The keys an operation can write. -/
@[reducible] def Op.writes : Op → List GovernanceKey
  | propose .. => [.proposalCounter, .proposal]
  | vote .. => [.proposalVote, .hasVoted, .proposal]
  | delegate .. | undelegate .. => [.votingPower]
  | executeProposal .. | cancelProposal .. => [.proposal]
  | updateConfig .. => [.config]

set_option synthInstance.maxSize 100000 in
/-- **Frame of the contract.** -/
theorem exec_writes (op : Op) : Writes layout op.writes (exec op) := by
  cases op <;>
    simp only [exec, Op.writes, propose, getNextProposalId, vote, delegate, undelegate, executeProposal,
      cancelProposal, updateConfig] <;>
    infer_instance

section
variable {env : Env} {s : State}

@[simp] theorem post_getOwner {Q : Address → State → Prop} :
    Post getOwner Q env s ↔ ∀ a, s.inst .owner () = some a → Q a s := by
  rw [getOwner, post_bind, post_load, post_unwrapOr]

@[simp] theorem post_getConfig {Q : GovernanceConfig → State → Prop} :
    Post getConfig Q env s ↔ ∀ c, s.inst .config () = some c → Q c s := by
  rw [getConfig, post_bind, post_load, post_unwrapOr]

@[simp] theorem post_getProposalOrPanic {i : ℕ} {Q : Proposal → State → Prop} :
    Post (getProposalOrPanic i) Q env s ↔ ∀ x, s.inst .proposal i = some x → Q x s := by
  rw [getProposalOrPanic, post_bind, post_load, post_unwrapOr]

end

/-! ## Powers -/

/-- The voting power of a user. -/
def powerOf (s : State) (u : Address) : VotingPower := (s.inst .votingPower u).getD ⟨u, 0, 0, none, 0⟩

@[simp] theorem post_getVotingPower {env : Env} {s : State} {u : Address}
    {Q : VotingPower → State → Prop} : Post (getVotingPower u) Q env s ↔ Q (powerOf s u) s := by
  rw [getVotingPower, post_bind, post_load, post_pure, powerOf]

end DAOGovernance
