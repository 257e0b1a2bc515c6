/-
  AuditLedger — the protocol of proposals.

  An owner submits an action, owners approve it, and an owner has it performed
  once there are enough approvals.  `Op.proposalAfter` says what a call does to
  the record of a proposal, and `step_proposal` that it does nothing else.

  * `history_proposals`: whatever the calls in between, a proposal is performed at
    most once and in time, its approvals are distinct, and ids are not reused;
  * `history_quorum`: a quorum of current owners has approved what is performed, as
    long as no owner that has approved is removed before.
-/
import AuditTransparency.Ledger.Roster

namespace AuditLedger

open Soroban
open Soroban.Call hiding hasPers publish

variable {D : Type} [DecidableEq D] {H : Host D} {env : Env} {s s' : State D} {op : Op D} {r : Ret D}
  {tr : List (State D × Action D)} {id : ℕ}

/-! ## What a call does to a proposal -/

/-- `DataKey::ProposalCount`, 0 when absent. -/
def proposalCount (s : State D) : ℕ := (s.inst .proposalCount ()).getD 0

/-- The approval counts: the proposal is open, and the approver is not listed. -/
def Proposal.accepts (p : Proposal) (now : ℕ) (approver : Address) : Prop :=
  ¬p.executed ∧ ¬p.expiresAt < now ∧ approver ∉ p.approvals

instance (p : Proposal) (now : ℕ) (approver : Address) : Decidable (p.accepts now approver) :=
  inferInstanceAs (Decidable (_ ∧ _))

/-- The record of proposal `id` after a call. -/
def Op.proposalAfter (env : Env) (s : State D) (id : ℕ) : Op D → Option Proposal
  | .submitProposal a action ttl =>
    if id = proposalCount s then some ⟨id, a, action, [a], env.timestamp + ttl, false⟩
    else s.inst .proposal id
  | .approveProposal a i =>
    (s.inst .proposal id).map fun p =>
      if id = i ∧ p.accepts env.timestamp a then { p with approvals := p.approvals ++ [a] } else p
  | .executeProposal _ i =>
    (s.inst .proposal id).map fun p =>
      if id = i ∧ (enacted s env.timestamp i).isSome then { p with executed := true } else p
  | _ => s.inst .proposal id

/-- The number of proposals after a call. -/
def Op.proposalCountAfter (s : State D) : Op D → ℕ
  | .submitProposal .. => proposalCount s + 1
  | _ => proposalCount s

/-- Performing an action leaves the proposals alone. -/
theorem post_performAction_proposal {executor : Address} {action : ProposalAction} :
    Post (performAction H executor action)
      (fun _ s' => s'.inst .proposal = s.inst .proposal ∧
        s'.inst .proposalCount = s.inst .proposalCount) env s := by
  refine Post.with_frame (L := layout D) (W := actionWrites) fun _ s₁ _ hf => ?_
  exact ⟨hf.inst (notMem_of_eval rfl), hf.inst (notMem_of_eval rfl)⟩

/-- **What a call does to the proposals.** -/
theorem step_proposal (hs : Step H env op s r s') :
    (∀ id : ℕ, s'.inst .proposal id = op.proposalAfter env s id) ∧
      proposalCount s' = op.proposalCountAfter s := by
  have of_post : Post (exec H op) (fun _ s' => (∀ id : ℕ, s'.inst .proposal id = op.proposalAfter env s id) ∧
      proposalCount s' = op.proposalCountAfter s) env s → _ := fun hp => hp.of_run hs
  cases op with
  | submitProposal a action ttl =>
    refine of_post ?_
    simp only [exec, submitProposal, post_bind, post_load, post_getEnv, post_addChecked, post_store,
      post_publish, post_pure]
    refine post_reads fun _ _ => post_reads fun _ _ => post_rejectIf.2 fun _ _ _ => ⟨fun id => ?_, ?_⟩
    · by_cases hid : id = proposalCount s
      · subst hid; simp [Op.proposalAfter, proposalCount]
      · have hne : id ≠ (s.inst .proposalCount ()).getD 0 := hid
        simp [Op.proposalAfter, hid, hne]
    · simp [proposalCount, Op.proposalCountAfter]
  | approveProposal a i =>
    refine of_post ?_
    simp only [exec, approveProposal, post_bind, post_load, post_unwrapOr, post_getEnv, post_doIf,
      post_store, post_publish, post_pure]
    refine post_reads fun _ _ => post_reads fun _ _ => post_rejectIf.2 fun _ p hp => ⟨fun hok => ?_,
      fun hno => ?_⟩
    · refine ⟨fun id => ?_, by simp [proposalCount, Op.proposalCountAfter]⟩
      by_cases hid : id = i
      · subst hid
        have hacc : p.accepts env.timestamp a := hok
        simp [Op.proposalAfter, hp, hacc]
      · simp [Op.proposalAfter, hid]
    · refine ⟨fun id => ?_, rfl⟩
      by_cases hid : id = i
      · subst hid
        have hacc : ¬p.accepts env.timestamp a := hno
        simp [Op.proposalAfter, hp, hacc]
      · simp [Op.proposalAfter, hid]
  | executeProposal a i =>
    refine of_post ?_
    simp only [exec, post_bind, post_pure]
    refine post_executeProposal (fun he => ?_) fun p hp he => ?_
    · refine ⟨fun id => ?_, rfl⟩
      simp [Op.proposalAfter, he]
    · refine post_performAction_proposal.mono fun _ s₁ h₁ n => ?_
      refine ⟨fun id => ?_, by simp [proposalCount, Op.proposalCountAfter, h₁.2]⟩
      by_cases hid : id = i
      · subst hid; simp [Op.proposalAfter, hp, he]
      · simp [Op.proposalAfter, hid, h₁.1]
  | _ =>
    have hf := (exec_writes H _).of_run hs
    refine ⟨fun id => ?_, ?_⟩
    · rw [hf.inst (notMem_of_eval rfl)]; rfl
    · simp only [proposalCount, hf.inst (f := DataKey.proposalCount) (by simp)]; rfl

/-- An execution that performs nothing changes nothing. -/
theorem step_executeProposal_idle {a : Address} (hs : Step H env (.executeProposal a id) s r s')
    (he : enacted s env.timestamp id = none) : s' = s := by
  have key : Post (exec H (.executeProposal a id)) (fun _ s' => s' = s) env s := by
    simp only [exec, post_bind, post_pure]
    refine post_executeProposal (fun _ => rfl) fun p _ he' => ?_
    rw [he] at he'; cases he'
  exact key.of_run hs

/-! ## Runs -/

/-- The step performs the action of proposal `id`. -/
def Action.performs (s : State D) (id : ℕ) : Action D → Bool
  | .call env (.executeProposal _ i) => i = id ∧ (enacted s env.timestamp i).isSome
  | _ => false

/-- The step submits a proposal. -/
def Action.isSubmission : Action D → Bool
  | .call _ (.submitProposal ..) => true
  | _ => false

/-- How often the action of proposal `id` has been performed. -/
def performances (tr : List (State D × Action D)) (id : ℕ) : ℕ :=
  tr.countP fun p => p.2.performs p.1 id

/-- How many proposals have been submitted. -/
def submissions (tr : List (State D × Action D)) : ℕ := tr.countP fun p => p.2.isSubmission

/-- What the records say of the run so far. -/
structure Booked (tr : List (State D × Action D)) (s : State D) : Prop where
  count : proposalCount s = submissions tr
  listed : ∀ id : ℕ, (s.inst .proposal id).isSome ↔ id < proposalCount s
  distinct : ∀ (id : ℕ) p, s.inst .proposal id = some p → p.approvals.Nodup
  marked : ∀ id, 0 < performances tr id → ∃ p, s.inst .proposal id = some p ∧ p.executed = true
  once : ∀ id, performances tr id ≤ 1

/-- What is enacted has not been performed before, and has not expired. -/
theorem enacted_some {now : ℕ} {action : ProposalAction} (h : enacted s now id = some action) :
    ∃ p, s.inst .proposal id = some p ∧ p.action = action ∧ p.executed = false ∧ now ≤ p.expiresAt ∧
      (rosterOf s).required ≤ p.approvals.length := by
  unfold enacted at h
  rcases hp : s.inst .proposal id with _ | p
  · rw [hp] at h; cases h
  · rw [hp, Option.bind_some] at h
    split_ifs at h with hok
    obtain ⟨hex, htime, hlen⟩ := hok
    exact ⟨p, rfl, Option.some.inj h, by simpa using hex, not_lt.1 htime, not_lt.1 hlen⟩

/-- What never changes in a record, and what only grows. -/
structure Proposal.Extends (p p' : Proposal) : Prop where
  id_eq : p'.id = p.id
  proposer_eq : p'.proposer = p.proposer
  action_eq : p'.action = p.action
  expiresAt_eq : p'.expiresAt = p.expiresAt
  approvals : p.approvals <+: p'.approvals
  executed : p.executed = true → p'.executed = true

theorem Proposal.Extends.refl (p : Proposal) : p.Extends p :=
  ⟨rfl, rfl, rfl, rfl, List.prefix_rfl, fun h => h⟩

theorem Proposal.Extends.trans {p p' p'' : Proposal} (h : p.Extends p') (h' : p'.Extends p'') :
    p.Extends p'' where
  id_eq := h'.id_eq.trans h.id_eq
  proposer_eq := h'.proposer_eq.trans h.proposer_eq
  action_eq := h'.action_eq.trans h.action_eq
  expiresAt_eq := h'.expiresAt_eq.trans h.expiresAt_eq
  approvals := h.approvals.trans h'.approvals
  executed := fun hex => h'.executed (h.executed hex)

/-- A record stays, and is only extended. -/
theorem extends_proposalAfter (hlisted : ∀ id : ℕ, (s.inst .proposal id).isSome ↔ id < proposalCount s)
    {p : Proposal} (hp : s.inst .proposal id = some p) :
    ∃ p', op.proposalAfter env s id = some p' ∧ p.Extends p' := by
  cases op with
  | submitProposal a action ttl =>
    have hne : id ≠ proposalCount s := Nat.ne_of_lt ((hlisted id).1 (by rw [hp]; rfl))
    exact ⟨p, by simp [Op.proposalAfter, hne, hp], .refl p⟩
  | approveProposal a i =>
    refine ⟨_, by rw [Op.proposalAfter, hp]; rfl, ?_⟩
    dsimp only
    split_ifs
    · exact ⟨rfl, rfl, rfl, rfl, List.prefix_append _ _, fun hex => hex⟩
    · exact .refl p
  | executeProposal a i =>
    refine ⟨_, by rw [Op.proposalAfter, hp]; rfl, ?_⟩
    dsimp only
    split_ifs
    · exact ⟨rfl, rfl, rfl, rfl, List.prefix_rfl, fun _ => rfl⟩
    · exact .refl p
  | _ => exact ⟨p, hp, .refl p⟩

/-- Approvals stay distinct. -/
theorem nodup_proposalAfter (hdistinct : ∀ id p, s.inst .proposal id = some p → p.approvals.Nodup)
    {p' : Proposal} (hp' : op.proposalAfter env s id = some p') : p'.approvals.Nodup := by
  cases op with
  | submitProposal a action ttl =>
    simp only [Op.proposalAfter] at hp'
    split_ifs at hp'
    · cases hp'; simp
    · exact hdistinct id p' hp'
  | approveProposal a i =>
    obtain ⟨p, hp, rfl⟩ := Option.map_eq_some_iff.1 hp'
    split_ifs with hok
    · -- the approver was not listed
      rw [List.nodup_append]
      refine ⟨hdistinct id p hp, by simp, fun x hx y hy => ?_⟩
      rw [List.mem_singleton.1 hy]
      exact ne_of_mem_of_not_mem hx hok.2.2.2
    · exact hdistinct id p hp
  | executeProposal a i =>
    obtain ⟨p, hp, rfl⟩ := Option.map_eq_some_iff.1 hp'
    split_ifs <;> exact hdistinct id p hp
  | _ => exact hdistinct id p' hp'

theorem isSome_proposalAfter : (op.proposalAfter env s id).isSome ↔
    (s.inst .proposal id).isSome ∨ (op.proposalCountAfter s = proposalCount s + 1 ∧
      id = proposalCount s) := by
  cases op with
  | submitProposal a action ttl =>
    by_cases hid : id = proposalCount s <;> simp [Op.proposalAfter, Op.proposalCountAfter, hid]
  | _ => simp [Op.proposalAfter, Op.proposalCountAfter]

theorem proposalCountAfter_eq (env : Env) :
    op.proposalCountAfter s = proposalCount s + if (Action.call env op).isSubmission then 1 else 0 := by
  cases op <;> simp [Op.proposalCountAfter, Action.isSubmission]

/-- The step that performs a proposal finds it unmarked and leaves it marked. -/
theorem performs_call {p : Proposal} (hperf : (Action.call env op).performs s id = true)
    (hp : s.inst .proposal id = some p) :
    p.executed = false ∧ op.proposalAfter env s id = some { p with executed := true } := by
  cases op with
  | executeProposal a i =>
    obtain ⟨rfl, hsome⟩ := of_decide_eq_true hperf
    obtain ⟨action, he⟩ := Option.isSome_iff_exists.1 hsome
    obtain ⟨p', hp', -, hex, -, -⟩ := enacted_some he
    obtain rfl : p = p' := Option.some.inj (hp.symm.trans hp')
    exact ⟨hex, by simp [Op.proposalAfter, hp, hsome]⟩
  | _ => cases hperf

theorem booked_call (h : Booked tr s) (hs : Step H env op s r s') :
    Booked (tr ++ [(s, .call env op)]) s' := by
  obtain ⟨hrec, hcount⟩ := step_proposal hs
  have hperf : ∀ id, performances (tr ++ [(s, .call env op)]) id =
      performances tr id + if (Action.call env op).performs s id then 1 else 0 := fun id => by
    simp [performances, List.countP_append, List.countP_singleton]
  constructor
  · rw [hcount, proposalCountAfter_eq env, h.count]
    simp [submissions, List.countP_append, List.countP_singleton]
  · intro id
    rw [hrec, hcount, isSome_proposalAfter, h.listed, proposalCountAfter_eq env]
    split_ifs <;> omega
  · intro id p hp
    rw [hrec] at hp
    exact nodup_proposalAfter h.distinct hp
  · intro id hpos
    rw [hperf] at hpos
    rw [hrec]
    by_cases hnow : (Action.call env op).performs s id = true
    · obtain ⟨p, hp⟩ : ∃ p, s.inst .proposal id = some p := by
        cases op with
        | executeProposal a i =>
          obtain ⟨rfl, hsome⟩ := of_decide_eq_true hnow
          obtain ⟨action, he⟩ := Option.isSome_iff_exists.1 hsome
          obtain ⟨p, hp, -⟩ := enacted_some he
          exact ⟨p, hp⟩
        | _ => cases hnow
      exact ⟨_, (performs_call hnow hp).2, rfl⟩
    · rw [if_neg hnow] at hpos
      obtain ⟨p, hp, hex⟩ := h.marked id hpos
      obtain ⟨p', hp', hext⟩ := extends_proposalAfter h.listed hp
      exact ⟨p', hp', hext.executed hex⟩
  · intro id
    rw [hperf]
    by_cases hnow : (Action.call env op).performs s id = true
    · -- performed before, it would be marked
      rw [if_pos hnow]
      by_contra hlt
      obtain ⟨p, hp, hex⟩ := h.marked id (by omega)
      rw [(performs_call hnow hp).1] at hex
      cases hex
    · rw [if_neg hnow]
      exact h.once id

/-- A step that is no call of the contract. -/
theorem Booked.quiet (h : Booked tr s) {a : Action D} (hsub : a.isSubmission = false)
    (hperf : ∀ id, a.performs s id = false) (hs : s'.inst = s.inst) : Booked (tr ++ [(s, a)]) s' := by
  have hp : ∀ id, performances (tr ++ [(s, a)]) id = performances tr id := fun id => by
    simp [performances, List.countP_append, hperf]
  have hn : submissions (tr ++ [(s, a)]) = submissions tr := by
    simp [submissions, List.countP_append, hsub]
  have hc : proposalCount s' = proposalCount s := by simp only [proposalCount, hs]
  constructor
  · rw [hn, hc]; exact h.count
  · rw [hc, hs]; exact h.listed
  · rw [hs]; exact h.distinct
  · simp only [hp, hs]; exact h.marked
  · simp only [hp]; exact h.once

theorem booked_of_run {s₀ : State D} (h₀ : Init s₀) (hrun : Run (Next H) s₀ tr s) : Booked tr s := by
  obtain ⟨g, m, hinit⟩ := initialized_of_init h₀
  induction hrun with
  | init =>
    have hcount : proposalCount s₀ = 0 := by
      rw [proposalCount, (hinit.absent (f := .proposalCount) (by simp) ()).1]; rfl
    have hnone : ∀ id, s₀.inst .proposal id = none := fun id =>
      (hinit.absent (f := .proposal) (by simp) id).1
    constructor <;> simp [hcount, hnone, submissions, performances]
  | @snoc tr s s' a _ hn ih =>
    cases a with
    | call env op =>
      obtain ⟨r, hs⟩ := hn
      exact booked_call ih hs
    | expireTemporary f k => rw [Next] at hn; exact ih.quiet rfl (fun _ => rfl) (by rw [hn]; rfl)
    | expirePersistent f k => rw [Next] at hn; exact ih.quiet rfl (fun _ => rfl) (by rw [hn]; rfl)

/-- Along a run, a record is only extended. -/
theorem extends_of_run {s₀ s₁ : State D} {tr₁ tr₂ : List (State D × Action D)} (h₀ : Init s₀)
    (h₁ : Run (Next H) s₀ tr₁ s₁) (h₂ : Run (Next H) s₁ tr₂ s) {p : Proposal}
    (hp : s₁.inst .proposal id = some p) : ∃ p', s.inst .proposal id = some p' ∧ p.Extends p' := by
  induction h₂ with
  | init => exact ⟨p, hp, .refl p⟩
  | @snoc tr₂ s s' a hr hn ih =>
    obtain ⟨q, hq, hext⟩ := ih
    cases a with
    | call env op =>
      obtain ⟨r, hs⟩ := hn
      obtain ⟨q', hq', hext'⟩ := extends_proposalAfter (booked_of_run h₀ (h₁.append hr)).listed hq
      exact ⟨q', by rw [(step_proposal hs).1]; exact hq', hext.trans hext'⟩
    | expireTemporary f k | expirePersistent f k =>
      rw [Next] at hn; subst hn
      exact ⟨q, hq, hext⟩

/-- **Safety of proposals.** -/
structure ProposalsSafe (H : Host D) (tr : List (State D × Action D)) (s : State D) : Prop where
  /-- the action is performed at most once -/
  once : ∀ id, performances tr id ≤ 1
  /-- and not after `expires_at`; otherwise `execute_proposal` does nothing -/
  inTime : ∀ s₁ env a id, (s₁, Action.call env (.executeProposal a id)) ∈ tr →
    (enacted s₁ env.timestamp id).isSome →
      ∃ p, s₁.inst .proposal id = some p ∧ env.timestamp ≤ p.expiresAt
  idle : ∀ s₁ env a id, (s₁, Action.call env (.executeProposal a id)) ∈ tr →
    enacted s₁ env.timestamp id = none → ∀ r s₂, Step H env (.executeProposal a id) s₁ r s₂ → s₂ = s₁
  /-- the action and `expires_at` are those submitted, and no address approves twice -/
  fixed : ∀ q ∈ tr, ∀ id p, q.1.inst .proposal id = some p →
    ∃ p', s.inst .proposal id = some p' ∧ p.Extends p'
  distinct : ∀ (id : ℕ) p, s.inst .proposal id = some p → p.approvals.Nodup
  /-- the `k`-th submission gets the id `k`, which is not in use -/
  numbered : ∀ tr₁ s₁ env a action ttl tr₂,
    tr = tr₁ ++ (s₁, .call env (.submitProposal a action ttl)) :: tr₂ →
      s₁.inst .proposal (submissions tr₁) = none ∧
      ∀ r s₂, Step H env (.submitProposal a action ttl) s₁ r s₂ → r = .nat (submissions tr₁)
  /-- one proposal does not touch another -/
  framed : ∀ s₁ env op id i a, (s₁, Action.call env op) ∈ tr →
    (op = .approveProposal a i ∨ op = .executeProposal a i) → i ≠ id →
      ∀ r s₂, Step H env op s₁ r s₂ → s₂.inst .proposal id = s₁.inst .proposal id

theorem step_submitProposal {a : Address} {action : ProposalAction} {ttl : ℕ}
    (hs : Step H env (.submitProposal a action ttl) s r s') : r = .nat (proposalCount s) := by
  have key : Post (exec H (.submitProposal a action ttl)) (fun r _ => r = .nat (proposalCount s)) env s := by
    simp only [exec, submitProposal, post_bind, post_load, post_getEnv, post_addChecked, post_store,
      post_publish, post_pure]
    exact post_reads fun _ _ => post_reads fun _ _ => post_rejectIf.2 fun _ _ _ => rfl
  exact key.of_run hs

/-- **Proposals are safe in every run**, however the calls interleave. -/
theorem history_proposals (h : History H tr s) : ProposalsSafe H tr s := by
  obtain ⟨s₀, h₀, hrun⟩ := h
  have hbook := booked_of_run h₀ hrun
  refine ⟨hbook.once, ?_, ?_, ?_, hbook.distinct, ?_, ?_⟩
  · intro s₁ env a id _ hsome
    obtain ⟨action, he⟩ := Option.isSome_iff_exists.1 hsome
    obtain ⟨p, hp, -, -, htime, -⟩ := enacted_some he
    exact ⟨p, hp, htime⟩
  · intro s₁ env a id _ he r s₂ hs
    exact step_executeProposal_idle hs he
  · rintro ⟨s₁, act⟩ hq id p hp
    obtain ⟨tr₁, tr₂, rfl⟩ := List.append_of_mem hq
    obtain ⟨s₂, h₁, hn, h₂⟩ := hrun.split
    exact extends_of_run h₀ h₁ (Run.append (.snoc .init hn) h₂) hp
  · rintro tr₁ s₁ env a action ttl tr₂ rfl
    obtain ⟨s₂, h₁, -, -⟩ := hrun.split
    have hbook₁ := booked_of_run h₀ h₁
    rw [← hbook₁.count]
    refine ⟨?_, fun r s₂ hs => step_submitProposal hs⟩
    rw [← Option.not_isSome_iff_eq_none, hbook₁.listed]
    exact lt_irrefl _
  · rintro s₁ env op id i a - hop hne r s₂ hs
    rw [(step_proposal hs).1]
    rcases hop with rfl | rfl
    · simp [Op.proposalAfter, Ne.symm hne]
    · simp [Op.proposalAfter, Ne.symm hne]

/-- Two owners pause the contract, and one of them tries to do it twice. -/
def pauseScript : List (Env × Op Bytes) :=
  [(openEnv 11, .addOwner (account 65) (account 66)), (openEnv 12, .setRequiredSignatures (account 65) 2),
    (openEnv 13, .submitProposal (account 65) .pause 100), (openEnv 14, .approveProposal (account 66) 0),
    (openEnv 15, .executeProposal (account 65) 0), (openEnv 16, .executeProposal (account 65) 0)]

theorem history_proposals_pauseScript : ∃ tr s, History plainHost tr s ∧ performances tr 0 = 1 ∧
    ProposalsSafe plainHost tr s := by
  let s₀ : State Bytes := deployed (openEnv 10) (account 65) 100 50
  obtain ⟨s, hs⟩ : ∃ s, play plainHost s₀ pauseScript = some s :=
    Option.isSome_iff_exists.1 (by decide)
  have hist := history_of_play (init_deployed rfl 100 50) hs
  exact ⟨_, s, hist, by decide, history_proposals hist⟩

/-! ## The quorum -/

/-- **Enough of the approvals are by current owners.** -/
def Quorum (s : State D) (p : Proposal) : Prop :=
  p.approvals.Nodup ∧
    max 1 (rosterOf s).required ≤ (p.approvals.filter fun b => (rosterOf s).IsOwner b).length

/-- The step takes ownership from an address that has approved the open proposal `id`. -/
def Action.unseatsApprover (s : State D) (id : ℕ) (act : Action D) : Prop :=
  ∃ p, s.inst .proposal id = some p ∧ p.executed = false ∧
    ∃ b ∈ p.approvals, Roster.unseats (rosterOf s) b (act.change s)

/-- Every approval of the open proposal `id` is by a current owner. -/
def ApprovedByOwners (s : State D) (id : ℕ) : Prop :=
  ∀ p, s.inst .proposal id = some p → p.approvals ≠ [] ∧
    (p.executed = false → ∀ b ∈ p.approvals, (rosterOf s).IsOwner b)

/-- Only owners submit and approve. -/
theorem isOwner_of_step {a : Address} (hs : Step H env op s r s')
    (hop : (∃ action ttl, op = .submitProposal a action ttl) ∨ ∃ i, op = .approveProposal a i) :
    (rosterOf s).IsOwner a := by
  have key : Post (exec H op) (fun _ _ => (rosterOf s).IsOwner a) env s := by
    rcases hop with ⟨action, ttl, rfl⟩ | ⟨i, rfl⟩
    · simp only [exec, submitProposal]
      refine post_bind.2 (post_bind_reads fun _ _ => post_bind.2 ((post_of_run isAddrOwner_run).2 ?_))
      refine post_bind.2 (post_rejectIf.2 fun hown _ _ _ _ _ _ => ?_)
      simpa using hown
    · simp only [exec, approveProposal]
      refine post_bind.2 (post_bind_reads fun _ _ => post_bind.2 ((post_of_run isAddrOwner_run).2 ?_))
      refine post_bind.2 (post_rejectIf.2 fun hown _ _ _ _ _ _ => ?_)
      simpa using hown
  exact key.of_run hs

/-- Where the approvals of an open proposal come from: they were there, or an owner has just
    approved and the roster is as it was. -/
theorem approvals_proposalAfter (hs : Step H env op s r s') {p' : Proposal}
    (hp' : op.proposalAfter env s id = some p') :
    (∃ p, s.inst .proposal id = some p ∧ (p'.executed = false → p.executed = false) ∧
      (p'.approvals = p.approvals ∨ ∃ a, p'.approvals = p.approvals ++ [a] ∧
        (rosterOf s).IsOwner a ∧ op.change env s = .keep)) ∨
    (p'.approvals ≠ [] ∧ (∀ b ∈ p'.approvals, (rosterOf s).IsOwner b) ∧ op.change env s = .keep) := by
  cases op with
  | submitProposal a action ttl =>
    simp only [Op.proposalAfter] at hp'
    split_ifs at hp'
    · cases hp'
      refine Or.inr ⟨by simp, fun b hb => ?_, rfl⟩
      rw [List.mem_singleton.1 hb]
      exact isOwner_of_step hs (Or.inl ⟨action, ttl, rfl⟩)
    · exact Or.inl ⟨p', hp', fun h => h, Or.inl rfl⟩
  | approveProposal a i =>
    obtain ⟨p, hp, rfl⟩ := Option.map_eq_some_iff.1 hp'
    refine Or.inl ⟨p, hp, ?_⟩
    split_ifs
    · exact ⟨fun h => h, Or.inr ⟨a, rfl, isOwner_of_step hs (Or.inr ⟨i, rfl⟩), rfl⟩⟩
    · exact ⟨fun h => h, Or.inl rfl⟩
  | executeProposal a i =>
    obtain ⟨p, hp, rfl⟩ := Option.map_eq_some_iff.1 hp'
    refine Or.inl ⟨p, hp, ?_⟩
    split_ifs
    · exact ⟨fun h => (by cases h), Or.inl rfl⟩
    · exact ⟨fun h => h, Or.inl rfl⟩
  | _ => exact Or.inl ⟨p', hp', fun h => h, Or.inl rfl⟩

theorem approvedByOwners_next {act : Action D} (h : ApprovedByOwners s id)
    (hkept : ¬act.unseatsApprover s id) (hn : Next H s act s') : ApprovedByOwners s' id := by
  cases act with
  | call env op =>
    obtain ⟨r, hs⟩ := hn
    intro p' hp'
    rw [(step_proposal hs).1] at hp'
    have hroster := step_roster hs
    rcases approvals_proposalAfter hs hp' with ⟨p, hp, hopen, happ⟩ | ⟨hne, hown, hkeep⟩
    · obtain ⟨hne, howners⟩ := h p hp
      -- who has approved before is still an owner
      have hstill : p'.executed = false → ∀ b ∈ p.approvals, (rosterOf s').IsOwner b := by
        intro hex b hb
        rw [hroster, Roster.isOwner_apply]
        refine Or.inr ⟨howners (hopen hex) b hb, fun hun => ?_⟩
        exact hkept ⟨p, hp, hopen hex, b, hb, hun⟩
      rcases happ with happ | ⟨a, happ, ha, hkeep⟩
      · rw [happ]; exact ⟨hne, hstill⟩
      · rw [happ]
        refine ⟨by simp, fun hex b hb => ?_⟩
        rcases List.mem_append.1 hb with hb | hb
        · exact hstill hex b hb
        · rw [List.mem_singleton.1 hb, hroster, hkeep]
          exact ha
    · refine ⟨hne, fun _ b hb => ?_⟩
      rw [hroster, hkeep]
      exact hown b hb
  | expireTemporary f k => rw [Next] at hn; subst hn; exact h
  | expirePersistent f k => rw [Next] at hn; subst hn; exact h

/-- **A quorum of current owners** has approved a proposal when its action is performed, as long
    as no step before took ownership from an address that had approved it. -/
theorem history_quorum {tr₁ tr₂ : List (State D × Action D)} {s₁ : State D} {executor : Address}
    (h : History H (tr₁ ++ (s₁, .call env (.executeProposal executor id)) :: tr₂) s)
    (hperf : (enacted s₁ env.timestamp id).isSome)
    (hkept : ∀ p ∈ tr₁, ¬p.2.unseatsApprover p.1 id) :
    ∃ p, s₁.inst .proposal id = some p ∧ Quorum s₁ p := by
  obtain ⟨s₀, h₀, hrun⟩ := h
  obtain ⟨s₂, hrun₁, -, -⟩ := hrun.split
  obtain ⟨g, m, hinit⟩ := initialized_of_init h₀
  have happ : ApprovedByOwners s₁ id := by
    refine hrun₁.invariant (C := fun s act => ¬act.unseatsApprover s id)
      (I := fun s => ApprovedByOwners s id) ?_ ?_ hkept
    · intro p hp
      rw [(hinit.absent (f := .proposal) (by simp) id).1] at hp
      cases hp
    · intro s act s' hact hn hs
      exact approvedByOwners_next hs hact hn
  obtain ⟨action, he⟩ := Option.isSome_iff_exists.1 hperf
  obtain ⟨p, hp, -, hex, -, hlen⟩ := enacted_some he
  obtain ⟨hne, hown⟩ := happ p hp
  refine ⟨p, hp, (booked_of_run h₀ hrun₁).distinct id p hp, ?_⟩
  have hall : (p.approvals.filter fun b => (rosterOf s₁).IsOwner b) = p.approvals := by
    rw [List.filter_eq_self]
    intro b hb
    exact decide_eq_true (hown hex b hb)
  rw [hall]
  exact max_le (List.length_pos_iff.2 hne) hlen

/-- Two owners agree. -/
def agreedScript : List (Env × Op Bytes) :=
  [(openEnv 11, .addOwner (account 65) (account 66)), (openEnv 12, .setRequiredSignatures (account 65) 2),
    (openEnv 13, .submitProposal (account 65) .pause 100), (openEnv 14, .approveProposal (account 66) 0)]

theorem history_quorum_agreedScript : ∃ (s : State Bytes) (p : Proposal), Reachable plainHost s ∧
    s.inst .proposal 0 = some p ∧ (rosterOf s).required = 2 ∧ Quorum s p := by
  let s₀ : State Bytes := deployed (openEnv 10) (account 65) 100 50
  obtain ⟨s, hs⟩ : ∃ s, play plainHost s₀ (agreedScript ++
      (openEnv 15, .executeProposal (account 65) 0) :: []) = some s :=
    Option.isSome_iff_exists.1 (by decide)
  obtain ⟨s₁, r, s₂, hpre, -, -, hist⟩ := history_around (init_deployed rfl 100 50) hs
  have before : (play plainHost s₀ agreedScript).map
      (fun s => ((enacted s 15 0).isSome, (rosterOf s).required)) = some (true, 2) := by decide
  rw [hpre] at before
  simp only [Option.map_some, Option.some.injEq, Prod.mk.injEq] at before
  have hkept : (traceOf plainHost s₀ agreedScript).all (fun p => p.2.change p.1 ∈
      [.add (account 66), .require 2, .keep]) = true := by decide
  obtain ⟨p, hp, hq⟩ := history_quorum hist before.1 fun q hq => by
    rintro ⟨p, -, -, b, -, hun⟩
    have hchange := of_decide_eq_true (List.all_eq_true.1 hkept q hq)
    simp only [List.mem_cons, List.not_mem_nil, or_false] at hchange
    rcases hchange with h | h | h <;> (rw [h] at hun; exact hun)
  exact ⟨s₁, p, ⟨_, history_of_play (init_deployed rfl 100 50) hpre⟩, hp, before.2, hq⟩

/-- An owner submits a proposal and is removed. -/
def departedScript : List (Env × Op Bytes) :=
  [(openEnv 11, .addOwner (account 65) (account 66)),
    (openEnv 12, .submitProposal (account 66) .pause 100),
    (openEnv 13, .removeOwner (account 65) (account 66))]

/-- The proposal is performed although no current owner has approved it. -/
theorem performed_without_owners : ∃ (s s' : State Bytes) (r : Ret Bytes) (p : Proposal),
    Reachable plainHost s ∧ Step plainHost (openEnv 14) (.executeProposal (account 65) 0) s r s' ∧
    (enacted s 14 0).isSome ∧ s'.inst .paused () = some true ∧ s.inst .proposal 0 = some p ∧
    (∀ b ∈ p.approvals, ¬(rosterOf s).IsOwner b) ∧ ¬Quorum s p := by
  let s₀ : State Bytes := deployed (openEnv 10) (account 65) 100 50
  obtain ⟨s', hs'⟩ : ∃ s', play plainHost s₀ (departedScript ++
      [(openEnv 14, .executeProposal (account 65) 0)]) = some s' :=
    Option.isSome_iff_exists.1 (by decide)
  obtain ⟨s, r, hs, hstep⟩ := step_of_play hs'
  have after : (play plainHost s₀ (departedScript ++
      [(openEnv 14, .executeProposal (account 65) 0)])).map (fun s => s.inst .paused ()) =
      some (some true) := by decide
  have before : (play plainHost s₀ departedScript).map (fun s => ((enacted s 14 0).isSome,
      (s.inst .proposal 0).map (·.approvals), decide ((rosterOf s).IsOwner (account 66)))) =
      some (true, some [account 66], false) := by decide
  rw [hs] at before
  rw [hs'] at after
  simp only [Option.map_some, Option.some.injEq, Prod.mk.injEq, Option.map_eq_some_iff,
    decide_eq_false_iff_not] at before after
  obtain ⟨henacted, ⟨p, hp, happ⟩, hown⟩ := before
  have hnone : ∀ b ∈ p.approvals, ¬(rosterOf s).IsOwner b := by
    rw [happ]
    intro b hb
    rw [List.mem_singleton.1 hb]
    exact hown
  refine ⟨s, s', r, p, ⟨_, history_of_play (init_deployed rfl 100 50) hs⟩, hstep, henacted, after, hp,
    hnone, ?_⟩
  rintro ⟨-, hle⟩
  have hempty : (p.approvals.filter fun b => (rosterOf s).IsOwner b) = [] := by
    rw [List.filter_eq_nil_iff]
    intro b hb
    simpa using hnone b hb
  rw [hempty] at hle
  simp at hle

end AuditLedger
