/-
  DAOGovernance — what every function leaves.

  One lemma for each function that writes: what it has checked when it returns, and the
  ledger it leaves.  `Touches` says what any step can do to one proposal.
-/
import AuditTransparency.Dao.Contract

namespace DAOGovernance

open Soroban
open Soroban.Call

/-! ## Tallies -/

/-- The votes on a proposal. -/
def Proposal.tally (x : Proposal) : ℕ := x.votesFor + x.votesAgainst + x.votesAbstain

/-- The proposal with more votes for a choice. -/
def Proposal.withVotes (x : Proposal) (n : ℕ) : VoteChoice → Proposal
  | .for_ => { x with votesFor := x.votesFor + n }
  | .against => { x with votesAgainst := x.votesAgainst + n }
  | .abstain => { x with votesAbstain := x.votesAbstain + n }

theorem withVotes_tally (x : Proposal) (n : ℕ) (c : VoteChoice) : (x.withVotes n c).tally = x.tally + n := by
  cases c <;> simp only [Proposal.withVotes, Proposal.tally] <;> omega

theorem withVotes_status (x : Proposal) (n : ℕ) (c : VoteChoice) : (x.withVotes n c).status = x.status := by
  cases c <;> rfl

section
variable {env : Env} {s s' : State} {a b : Address} {i n : ℕ} {c : VoteChoice} {x : Proposal}

/-- Votes are added, or the call fails. -/
theorem post_addVotes {Q : Proposal → State → Prop} (h : Q (x.withVotes n c) s) :
    Post (addVotes x n c) Q env s := by
  cases c <;> simp only [addVotes, post_bind, post_addChecked, post_pure] <;> exact fun _ => h

/-! ## Functions -/

/-- The id of the next proposal. -/
def nextId (s : State) : ℕ := (s.inst .proposalCounter ()).getD 1

/-- What a proposal leaves. -/
theorem proposed {k : ProposalType} {t d : String} {p : Bytes} {q m : ℕ}
    (h : (propose a k t d p q m).run env s = .ok (i, s')) :
    ∃ x, x.tally = 0 ∧ x.status = .active ∧
      s' = (s.put .proposalCounter () (nextId s + 1)).put .proposal (nextId s) x := by
  refine Post.of_run (m := propose a k t d p q m) (Q := fun _ s' => ∃ x, Proposal.tally x = 0 ∧
    x.status = .active ∧ s' = (s.put .proposalCounter () (nextId s + 1)).put .proposal (nextId s) x) ?_ h
  simp only [propose, getNextProposalId, post_bind, post_getConfig, post_getVotingPower, post_addChecked,
    post_rejectIf, post_load, post_getEnv, post_store, post_pure]
  intro _ _ _ _ _ _ _ _
  exact ⟨_, rfl, rfl, rfl⟩

/-- What a vote leaves. -/
theorem voted (h : (vote a i c).run env s = .ok ((), s')) :
    ∃ x y, s.inst .proposal i = some x ∧ env.sequence ≤ x.endLedger ∧
      s' = ((s.put .proposalVote (a, i) y).put .hasVoted (a, i) true).put .proposal i
        (x.withVotes ((powerOf s a).basePower + (powerOf s a).delegatedPower) c) := by
  refine Post.of_run (m := vote a i c) (Q := fun _ s' => ∃ x y, s.inst .proposal i = some x ∧
    env.sequence ≤ x.endLedger ∧
      s' = ((s.put .proposalVote (a, i) y).put .hasVoted (a, i) true).put .proposal i
        (Proposal.withVotes x ((powerOf s a).basePower + (powerOf s a).delegatedPower) c)) ?_ h
  simp only [vote, post_bind, post_getProposalOrPanic, post_getConfig, post_getEnv, post_rejectIf, post_load,
    post_getVotingPower, post_addChecked, post_store, not_lt]
  intro x hx _ _ _ hend _ _ _
  exact post_addVotes ⟨x, _, hx, hend, rfl⟩

/-- What a delegation leaves. -/
theorem delegated (h : (delegate a b).run env s = .ok ((), s')) :
    a ≠ b ∧ (powerOf s a).basePower ≠ 0 ∧
      s' = (s.put .votingPower a
        { powerOf s a with delegatedTo := some b, delegationLedger := env.sequence }).put .votingPower b
        { powerOf s b with delegatedPower := (powerOf s b).delegatedPower + (powerOf s a).basePower } := by
  refine Post.of_run (m := delegate a b) (Q := fun _ s' => a ≠ b ∧ (powerOf s a).basePower ≠ 0 ∧
    s' = (s.put .votingPower a
        { powerOf s a with delegatedTo := some b, delegationLedger := env.sequence }).put .votingPower b
        { powerOf s b with delegatedPower := (powerOf s b).delegatedPower + (powerOf s a).basePower }) ?_ h
  simp only [delegate, post_bind, post_rejectIf, post_getVotingPower, post_getEnv, post_addChecked,
    post_store]
  intro hab hbase _
  exact ⟨hab, hbase, trivial⟩

/-- What a revocation leaves. -/
theorem undelegated (h : (undelegate a).run env s = .ok ((), s')) :
    ((powerOf s a).delegatedTo = none ∧
      s' = s.put .votingPower a { powerOf s a with delegatedTo := none }) ∨
    ∃ d, (powerOf s a).delegatedTo = some d ∧
      s' = (s.put .votingPower d
        { powerOf s d with delegatedPower := (powerOf s d).delegatedPower - (powerOf s a).basePower }).put
          .votingPower a { powerOf s a with delegatedTo := none } := by
  refine Post.of_run (m := undelegate a) (Q := fun _ s' => ((powerOf s a).delegatedTo = none ∧
      s' = s.put .votingPower a { powerOf s a with delegatedTo := none }) ∨
    ∃ d, (powerOf s a).delegatedTo = some d ∧
      s' = (s.put .votingPower d
        { powerOf s d with delegatedPower := (powerOf s d).delegatedPower - (powerOf s a).basePower }).put
          .votingPower a { powerOf s a with delegatedTo := none }) ?_ h
  simp only [undelegate, post_bind, post_getVotingPower, post_ifSome, post_subChecked, post_store]
  exact ⟨fun d hd _ => .inr ⟨d, hd, rfl⟩, fun hnone => .inl ⟨hnone, trivial⟩⟩

/-- What an execution leaves. -/
theorem executed (h : (executeProposal i).run env s = .ok ((), s')) :
    ∃ x, s.inst .proposal i = some x ∧ x.executionLedger ≤ env.sequence ∧ x.endLedger < env.sequence ∧
      s' = s.put .proposal i { x with status := .executed } := by
  refine Post.of_run (m := executeProposal i) (Q := fun _ s' => ∃ x, s.inst .proposal i = some x ∧
    x.executionLedger ≤ env.sequence ∧ x.endLedger < env.sequence ∧
      s' = s.put .proposal i { x with status := .executed }) ?_ h
  simp only [executeProposal, proposalPassed, post_bind, post_getProposalOrPanic, post_getEnv, post_rejectIf,
    post_ite, post_pure, post_addChecked, post_store, not_lt, not_le, not_true_eq_false, false_implies,
    implies_true, true_and]
  intro x hx hexec y hy hend _ _ _
  obtain rfl := Option.some.inj (hx.symm.trans hy)
  exact ⟨x, hx, hexec, hend, rfl⟩

/-- What a cancellation leaves. -/
theorem cancelled (h : (cancelProposal a i).run env s = .ok ((), s')) :
    ∃ x, s.inst .proposal i = some x ∧ s' = s.put .proposal i { x with status := .cancelled } := by
  refine Post.of_run (m := cancelProposal a i) (Q := fun _ s' => ∃ x, s.inst .proposal i = some x ∧
    s' = s.put .proposal i { x with status := .cancelled }) ?_ h
  simp only [cancelProposal, post_bind, post_getProposalOrPanic, post_getOwner, post_rejectIf, post_store]
  intro x hx _ _ _ _
  exact ⟨x, hx, rfl⟩

end

/-! ## One proposal -/

/-- A call for this proposal. -/
def Op.Concerns (i : ℕ) : Op → Prop
  | vote _ j _ | executeProposal j | cancelProposal _ j => j = i
  | _ => False

/-- What a call does to a proposal. -/
inductive Touches (s : State) (i : ℕ) (s' : State) : Env × Op → Prop
  | same {c} : s'.inst .proposal i = s.inst .proposal i → ¬c.2.Concerns i → Touches s i s' c
  | propose {env a k t d p q m x} : i = nextId s → nextId s' = nextId s + 1 → s'.inst .proposal i = some x →
      x.tally = 0 → x.status = .active → Touches s i s' (env, .propose a k t d p q m)
  | vote {env a c x} : s.inst .proposal i = some x → env.sequence ≤ x.endLedger →
      s'.inst .proposal i = some
        (x.withVotes ((powerOf s a).basePower + (powerOf s a).delegatedPower) c) →
      Touches s i s' (env, .vote a i c)
  | execute {env x} : s.inst .proposal i = some x → x.executionLedger ≤ env.sequence →
      x.endLedger < env.sequence → s'.inst .proposal i = some { x with status := .executed } →
      Touches s i s' (env, .executeProposal i)
  | cancel {env a x} : s.inst .proposal i = some x →
      s'.inst .proposal i = some { x with status := .cancelled } → Touches s i s' (env, .cancelProposal a i)

section
variable {s s' : State} {i : ℕ} {c : Env × Op}

/-- A write of another proposal. -/
theorem Touches.other {j : ℕ} {x : Proposal} (hij : i ≠ j)
    (hp : s'.inst .proposal = Function.update (s.inst .proposal) j (some x)) (hc : ¬c.2.Concerns i) :
    Touches s i s' c := .same (by rw [hp, Function.update_of_ne hij]) hc

/-- **Every step touches a proposal in one of these ways.** -/
theorem touches (hs : Steps exec s c s') (i : ℕ) : Touches s i s' c := by
  obtain ⟨env, op⟩ := c
  obtain ⟨_, hs⟩ := hs
  have hframe := (exec_writes op).of_run hs
  cases op with
  | propose a k t d p q m =>
    obtain ⟨_, hr, -⟩ := of_run_map _ _ hs
    obtain ⟨x, hx, hactive, rfl⟩ := proposed hr
    by_cases hi : i = nextId s
    · subst hi
      exact .propose rfl rfl (Function.update_self ..) hx hactive
    · exact .other hi rfl id
  | vote a j c =>
    obtain ⟨_, hr, -⟩ := of_run_map _ _ hs
    obtain ⟨x, y, hx, hend, rfl⟩ := voted hr
    by_cases hi : i = j
    · subst hi
      exact .vote hx hend (Function.update_self ..)
    · exact .other hi rfl (Ne.symm hi)
  | executeProposal j =>
    obtain ⟨_, hr, -⟩ := of_run_map _ _ hs
    obtain ⟨x, hx, hexec, hend, rfl⟩ := executed hr
    by_cases hi : i = j
    · subst hi
      exact .execute hx hexec hend (Function.update_self ..)
    · exact .other hi rfl (Ne.symm hi)
  | cancelProposal a j =>
    obtain ⟨_, hr, -⟩ := of_run_map _ _ hs
    obtain ⟨x, hx, rfl⟩ := cancelled hr
    by_cases hi : i = j
    · subst hi
      exact .cancel hx (Function.update_self ..)
    · exact .other hi rfl (Ne.symm hi)
  | _ => exact .same (by rw [hframe.inst (notMem_of_eval rfl)]) id

/-- Ids do not run backwards. -/
theorem nextId_le (hs : Steps exec s c s') : nextId s ≤ nextId s' := by
  obtain ⟨env, op⟩ := c
  obtain ⟨_, hs⟩ := hs
  have hframe := (exec_writes op).of_run hs
  cases op with
  | propose a k t d p q m =>
    obtain ⟨_, hr, -⟩ := of_run_map _ _ hs
    obtain ⟨x, -, -, rfl⟩ := proposed hr
    exact Nat.le_succ _
  | _ => rw [nextId, nextId, hframe.inst (notMem_of_eval rfl)]

/-- No proposal has been made. -/
def NoProposal (s : State) : Prop := ∀ i, s.inst .proposal i = none

/-- The governance starts without proposals. -/
theorem noProposal_initialized {s : State} {env : Env} {a : Address} {c : GovernanceConfig}
    (h : (initializeGovernance a c).run env Ledger.empty = .ok ((), s)) : NoProposal s := by
  refine Post.of_run (m := initializeGovernance a c) (Q := fun _ s => NoProposal s) ?_ h
  simp only [initializeGovernance, post_bind, post_requireAuth, post_load, post_rejectIf, post_store]
  intro _ _ i
  rfl

/-- Ids are not reused. -/
theorem unused_of_run {s₀ : State} {tr : List (State × (Env × Op))} (h₀ : NoProposal s₀)
    (h : Run (Steps exec) s₀ tr s) (hi : nextId s ≤ i) : s.inst .proposal i = none := by
  induction h with
  | init => exact h₀ i
  | @snoc tr s s' c _ hs ih =>
    have hnone := ih (Nat.le_trans (nextId_le hs) hi)
    cases touches hs i with
    | same hx _ => rw [hx, hnone]
    | propose he hn hx ht ha => omega
    | vote hx | execute hx | cancel hx => rw [hnone] at hx; cases hx

end

end DAOGovernance
