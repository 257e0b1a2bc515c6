/-
  AuditLedger — a performed proposal against the call it stands for.

  `execute_proposal` writes the records of nine governance calls itself.  The
  copies leave out checks (the null account, the bounds of the threshold and of
  the global maximum) and bookkeeping (the list of owners, roles, the repair of the
  threshold, the packed state).  `ProposalAction.faithful` says, of the state before,
  when this makes no difference.

  * `enactment_agrees_iff`: performing an approved action leaves the storage that the
    direct call by the same owner leaves, exactly when the action is faithful there.
-/
import AuditTransparency.Ledger.Owners

namespace AuditLedger

open Soroban
open Soroban.Call hiding hasPers publish

variable {D : Type} [DecidableEq D] {H : Host D} {env : Env} {s s' s'' : State D} {op : Op D} {r : Ret D}
  {α β : Type}

/-! ## Comparing storage -/

/-- The ledger after an invocation; one that fails leaves it as it was. -/
def settled (m : Fn D α) (env : Env) (s : State D) : State D :=
  match m.run env s with
  | .ok (_, s') => s'
  | .error _ => s

/-- The same storage, apart from the records of proposals. -/
structure SameStorage (s s' : State D) : Prop where
  inst : ∀ f, f ≠ .proposal → s.inst f = s'.inst f
  persistent : s.persistent = s'.persistent
  temporary : s.temporary = s'.temporary

namespace SameStorage

theorem refl (s : State D) : SameStorage s s := ⟨fun _ _ => rfl, rfl, rfl⟩

theorem symm (h : SameStorage s s') : SameStorage s' s :=
  ⟨fun f hf => (h.inst f hf).symm, h.persistent.symm, h.temporary.symm⟩

theorem trans (h : SameStorage s s') (h' : SameStorage s' s'') : SameStorage s s'' :=
  ⟨fun f hf => (h.inst f hf).trans (h'.inst f hf), h.persistent.trans h'.persistent,
    h.temporary.trans h'.temporary⟩

/-- Writing what is there changes nothing. -/
theorem put (h : SameStorage s s') {f : DataKey} {k : f.Key D} {v : f.Val D} (hv : s.inst f k = some v) :
    SameStorage s (s'.put f k v) := by
  refine ⟨fun g hg => ?_, h.persistent, h.temporary⟩
  by_cases hgf : g = f
  · subst hgf
    rw [Ledger.put_inst, Store.set_same, ← h.inst g hg, ← hv, Function.update_eq_self]
  · rw [Ledger.put_inst_ne _ hgf]
    exact h.inst g hg

theorem del (h : SameStorage s s') {f : DataKey} {k : f.Key D} (hv : s.inst f k = none) :
    SameStorage s (s'.del f k) := by
  refine ⟨fun g hg => ?_, h.persistent, h.temporary⟩
  by_cases hgf : g = f
  · subst hgf
    rw [Ledger.del_inst, Store.remove_same, ← h.inst g hg, ← hv, Function.update_eq_self]
  · rw [Ledger.del_inst_ne _ hgf]
    exact h.inst g hg

theorem publish (h : SameStorage s s') {n : Published D} : SameStorage s (s'.publish n) :=
  ⟨h.inst, h.persistent, h.temporary⟩

/-- The record of a proposal does not count. -/
theorem put_proposal (s : State D) {id : ℕ} {p : Proposal} {n : Published D} :
    SameStorage ((s.put .proposal id p).publish n) s := by
  refine ⟨fun f hf => ?_, rfl, rfl⟩
  exact Ledger.put_inst_ne s hf

end SameStorage

theorem settled_map (m : Fn D α) (f : α → β) :
    settled (m >>= fun a => pure (f a)) env s = settled m env s := by
  rw [settled, settled, run_bind]
  rcases m.run env s with e | ⟨a, s₁⟩ <;> rfl

/-! ## The calls of an owner -/

/-- The direct call for an action. -/
def ProposalAction.direct (caller : Address) : ProposalAction → Op D
  | .transferOwnership b => .transferOwnership caller b
  | .addOwner b => .addOwner caller b
  | .removeOwner b => .removeOwner caller b
  | .setRequiredSignatures n => .setRequiredSignatures caller n
  | .setGlobalMaxLogs v => .setGlobalMaxLogs caller v
  | .setMetadataSchema t schema => .setMetadataSchema caller t schema
  | .rollbackEvent i v => .rollbackEvent caller i v
  | .pause => .pause caller
  | .unpause => .unpause caller

/-- The records every deployed contract has, and the one it never has. -/
structure Deployed (s : State D) : Prop where
  owner : (s.inst .owner ()).isSome
  owners : (s.inst .owners ()).isSome
  config : (s.inst .config ()).isSome
  pausedSince : s.inst .pausedSince () = none

namespace Deployed

theorem of_eq (h : Deployed s)
    (hs : ∀ f ∈ [DataKey.owner, .owners, .config, .pausedSince], s'.inst f = s.inst f) : Deployed s' := by
  obtain ⟨h₁, h₂, h₃, h₄⟩ := h
  constructor
  · rw [hs _ (by simp)]; exact h₁
  · rw [hs _ (by simp)]; exact h₂
  · rw [hs _ (by simp)]; exact h₃
  · rw [hs _ (by simp)]; exact h₄

/-- A write never removes one of the records. -/
theorem put (h : Deployed s) {f : DataKey} {k : f.Key D} {v : f.Val D} (hf : f ≠ .pausedSince) :
    Deployed (s.put f k v) := by
  have keep : ∀ {g : DataKey} {j : g.Key D}, (s.inst g j).isSome → ((s.put f k v).inst g j).isSome := by
    intro g j hg
    by_cases hgf : g = f
    · subst hgf
      rw [Ledger.put_inst, Store.set_same]
      by_cases hj : j = k
      · subst hj; simp
      · rw [Function.update_of_ne hj]; exact hg
    · rw [Ledger.put_inst_ne _ hgf]; exact hg
  refine ⟨keep h.owner, keep h.owners, keep h.config, ?_⟩
  rw [Ledger.put_inst_ne _ (Ne.symm hf)]
  exact h.pausedSince

theorem publish (h : Deployed s) {n : Published D} : Deployed (s.publish n) := h.of_eq fun _ _ => rfl

theorem post_performAction (h : Deployed s) {executor : Address} {action : ProposalAction} :
    Post (performAction H executor action) (fun _ s' => Deployed s') env s := by
  cases action with
  | addOwner a =>
    simp only [performAction, post_bind, post_doIf, post_store]
    exact post_reads fun _ _ => ⟨fun _ => h.put (by simp), fun _ => h⟩
  | removeOwner a =>
    simp only [performAction, post_bind, post_store]
    exact post_reads fun _ _ => h.put (by simp)
  | setGlobalMaxLogs n =>
    simp only [performAction, post_bind, post_load, post_ifSome, post_store]
    exact ⟨fun _ _ => h.put (by simp), fun _ => h⟩
  | rollbackEvent i v =>
    simp only [performAction, post_bind, post_pure]
    refine Post.with_frame (L := layout D) (W := rewriteWrites) fun _ s₁ _ hf => ?_
    exact h.of_eq (hf.inst_eq (apart_of_eval rfl))
  | transferOwnership _ | setRequiredSignatures _ | setMetadataSchema _ _ | pause | unpause =>
    exact post_store.2 (h.put (by simp))

theorem post_logEvents (h : Deployed s) {items : List (Address × Symbol × Bytes)} :
    Post (logEvents H items) (fun _ s' => Deployed s') env s := by
  unfold logEvents
  refine post_bind_reads fun _ _ => post_bind_reads fun rs _ => ?_
  refine post_bind.2 (post_rejectIf.2 fun _ => post_bind.2 (post_rejectIf.2 fun _ => ?_))
  refine post_bind_reads fun _ _ => post_bind_reads fun prev _ => ?_
  simp only [post_bind, post_store, post_pure]
  refine Post.with_frame (L := layout D) (W := itemWrites) fun acc s₁ _ hf₁ => ?_
  refine post_syncTotalEvents.mono fun _ s₂ h₂ => ?_
  have h₁ : Deployed s₁ := h.of_eq (hf₁.inst_eq (apart_of_eval rfl))
  have hput : Deployed (s₁.put .config () ⟨rs.globalMaxLogs, acc.currentTotal⟩) := h₁.put (by simp)
  exact hput.of_eq (h₂.1.inst_eq (apart_of_eval rfl))

end Deployed

theorem deployed_single (h : Deployed s) {x : Submission} (hx : op.submission = some x)
    (hs : Step H env op s r s') : Deployed s' := by
  obtain ⟨id, s₁, hsub, -, hf, -⟩ := step_submitted hx hs
  refine Deployed.of_eq ?_ (hf.inst_eq (apart_of_eval rfl))
  have henter : Deployed (op.enter s) := h.of_eq fun _ _ => by rw [Op.enter_inst]
  rcases hsub.outcome with ⟨k, -, -, -, hf₁⟩ | ⟨-, i, q, -, hst⟩
  · exact henter.of_eq (hf₁.inst_eq (apart_of_eval rfl))
  · obtain ⟨cfg, -, -, hcfg⟩ := hst.config
    refine ⟨?_, ?_, by simp [hcfg], ?_⟩
    · rw [hst.frame.inst (notMem_of_eval rfl)]; exact henter.owner
    · rw [hst.frame.inst (notMem_of_eval rfl)]; exact henter.owners
    · rw [hst.frame.inst (notMem_of_eval rfl)]; exact henter.pausedSince

/-- The records stay. -/
theorem deployed_step (h : Deployed s) (hs : Step H env op s r s') : Deployed s' := by
  have of_post : Post (exec H op) (fun _ s' => Deployed s') env s → Deployed s' := fun hp => hp.of_run hs
  cases op with
  | logEvent | logEventWithNonce | logEventSigned | logEventWithCustomKey | logOperationalAction =>
    exact deployed_single h rfl hs
  | logEvents items =>
    refine of_post ?_
    simp only [exec, post_bind, post_pure]
    exact h.post_logEvents
  | setGlobalMaxLogs a n =>
    refine of_post ?_
    simp only [exec, setGlobalMaxLogs, syncRuntimeState, post_bind, post_pure, post_rejectIf,
      post_load, post_unwrap, post_store, post_ifSome, post_publish]
    refine post_reads fun _ _ => post_reads fun _ _ _ c _ => ⟨fun rs _ => ?_, fun _ => ?_⟩
    · exact (((h.put (by simp)).put (by simp)).put (by simp)).publish
    · exact ((h.put (by simp)).put (by simp)).publish
  | unpause a =>
    refine of_post ?_
    simp only [exec, unpause, post_bind, post_pure, post_store, post_clear, post_publish]
    refine post_reads fun _ _ => Deployed.publish ?_
    have hput : Deployed (s.put .paused () false) := h.put (by simp)
    refine ⟨?_, ?_, ?_, by simp⟩
    · rw [Ledger.del_inst_ne _ (by simp)]; exact hput.owner
    · rw [Ledger.del_inst_ne _ (by simp)]; exact hput.owners
    · rw [Ledger.del_inst_ne _ (by simp)]; exact hput.config
  | transferOwnership a b =>
    refine of_post ?_
    simp only [exec, transferOwnership, post_bind, post_pure, post_rejectIf, post_load, post_unwrap,
      post_store]
    refine post_reads fun _ _ c _ _ _ => post_reads fun owners _ => ?_
    have hput : Deployed ((s.put .owner () b).put .owners () (owners.replace c b)) :=
      (h.put (by simp)).put (by simp)
    refine Post.with_frame (L := layout D) (W := []) fun rbac s₁ _ hf₁ => ?_
    refine Post.with_frame (L := layout D) (W := [.role]) fun _ s₂ _ hf₂ =>
      post_publish.2 (Deployed.publish ?_)
    exact (hput.of_eq (hf₁.inst_eq (apart_of_eval rfl))).of_eq (hf₂.inst_eq (apart_of_eval rfl))
  | addOwner a b =>
    refine of_post ?_
    simp only [exec, addOwner, rbacEnabled, post_bind, post_pure, post_rejectIf, post_load, post_doIf,
      post_store, post_publish]
    refine post_reads fun _ _ => post_reads fun _ _ _ => post_reads fun owners _ =>
      ⟨fun _ => ?_, fun _ => h⟩
    exact ⟨fun _ => ((h.put (by simp)).put (by simp)).publish, fun _ => (h.put (by simp)).publish⟩
  | removeOwner a b =>
    refine of_post ?_
    simp only [exec, removeOwner, getRequiredSignatures, post_bind, post_pure, post_load, post_doIf,
      post_store, post_publish]
    refine post_reads fun _ _ => post_reads fun _ _ => post_reads fun owners _ =>
      ⟨fun _ => ?_, fun _ => h⟩
    exact ⟨fun _ => ((h.put (by simp)).put (by simp)).publish, fun _ => (h.put (by simp)).publish⟩
  | executeProposal a id =>
    refine of_post ?_
    simp only [exec, post_bind, post_pure]
    refine post_executeProposal (fun _ => h) fun p _ _ => ?_
    exact h.post_performAction.mono fun _ s₁ h₁ n => (h₁.put (by simp)).publish
  | _ => exact h.of_eq (((exec_writes H _).of_run hs).inst_eq (apart_of_eval rfl))

theorem deployed_of_init (h : Init s) : Deployed s := by
  obtain ⟨g, m, hinit⟩ := initialized_of_init h
  obtain ⟨env, owners, g', m', hrun⟩ := h
  obtain ⟨hros, hne⟩ := roster_of_initialize hrun
  have howners : (s.inst .owners ()).getD [] = owners := congrArg Roster.owners hros
  refine ⟨hinit.owned, ?_, by simp [hinit.config], ?_⟩
  · rcases hs : s.inst .owners () with _ | l
    · rw [hs] at howners; exact absurd howners.symm hne
    · rfl
  · rw [hinit.frame.inst (notMem_of_eval rfl)]; rfl

theorem deployed_of_reachable (h : Reachable H s) : Deployed s := by
  obtain ⟨tr, s₀, h₀, hrun⟩ := h
  refine hrun.invariant (C := fun _ _ => True) (deployed_of_init h₀) ?_ fun _ _ => trivial
  intro s act s' _ hn h
  cases act with
  | call env op =>
    obtain ⟨r, hs⟩ := hn
    exact deployed_step h hs
  | expireTemporary f k | expirePersistent f k =>
    rw [Next] at hn; subst hn
    exact h.of_eq fun _ _ => rfl

/-- The total as `total_events` reads it. -/
def totalOf (s : State D) : ℕ :=
  match s.inst .runtimeState () with
  | some rs => rs.totalEvents
  | none => ((s.inst .config ()).map (·.totalEvents)).getD 0

/-- What the direct call checks and writes beyond the action makes no difference. -/
def ProposalAction.faithful (s : State D) : ProposalAction → Prop
  | .transferOwnership b => (rosterOf s).owner = some b ∨
      (b ≠ nullAccount ∧ ∀ c, (rosterOf s).owner = some c → c ∉ (rosterOf s).owners ∧
        ((rosterOf s).rbac = true → (rosterOf s).role b = some .admin ∧
          (rosterOf s).role c ≠ some .admin))
  | .addOwner b => b ∈ (rosterOf s).owners ∨
      (b ≠ nullAccount ∧ ((rosterOf s).rbac = true → (rosterOf s).role b = some .admin))
  | .removeOwner b => b ∈ (rosterOf s).owners → (rosterOf s).required ≤ ((rosterOf s).without b).length
  | .setRequiredSignatures n => (1 ≤ n ∧ n ≤ (rosterOf s).owners.length) ∨
      s.inst .requiredSignatures () = some n
  | .setGlobalMaxLogs v =>
    if v < totalOf s then ∀ cfg, s.inst .config () = some cfg → cfg.globalMaxLogs = v
    else s.inst .globalMaxLogs () = some v ∧
      ∀ rs, s.inst .runtimeState () = some rs → rs.globalMaxLogs = v
  | .setMetadataSchema .. | .rollbackEvent .. | .pause | .unpause => True

/-! ## Performing an action -/

/-- `caller` is an owner, and its calls pass the checks on the caller. -/
structure Governs (env : Env) (s : State D) (caller : Address) : Prop where
  deployed : Deployed s
  unpaused : s.inst .paused () ≠ some true
  auth : env.auth caller = true
  owner : (rosterOf s).IsOwner caller
  admitted : (requireOwnerOrMultisig caller : Fn D Unit).run env s = .ok ((), s)

theorem settled_ok {m : Fn D α} {a : α} (h : m.run env s = .ok (a, s')) : settled m env s = s' := by
  rw [settled, h]

theorem settled_error {m : Fn D α} {e : Trap ContractError} (h : m.run env s = .error e) :
    settled m env s = s := by
  rw [settled, h]

/-- What `transfer_ownership` stores. -/
def handedOverTo (s : State D) (c b : Address) : State D :=
  let s₁ := (s.put .owner () b).put .owners () (((s.inst .owners ()).getD []).replace c b)
  if (s.inst .rbacEnabled ()).getD false = true then
    if s.inst .role c = some .admin then (s₁.put .role b .admin).del .role c
    else s₁.put .role b .admin
  else s₁

section
variable {caller : Address} (g : Governs env s caller)
include g

theorem Governs.requireInitialized_run : (requireInitialized : Fn D Unit).run env s = .ok ((), s) := by
  obtain ⟨c, hc⟩ := Option.isSome_iff_exists.1 g.deployed.config
  obtain ⟨o, ho⟩ := Option.isSome_iff_exists.1 g.deployed.owner
  simp [requireInitialized, run_bind, Except.bind, run_rejectIf, hc, ho]

theorem Governs.requireAuth_run : (requireAuth caller : Fn D Unit).run env s = .ok ((), s) := by
  rw [run_requireAuth, if_pos g.auth]

theorem Governs.requireCaller_run : (requireCaller caller : Fn D Unit).run env s = .ok ((), s) := by
  rw [requireCaller, run_bind_ok _ _ g.requireInitialized_run, run_bind_ok _ _ g.requireAuth_run,
    g.admitted]

theorem Governs.requireGovernance_run :
    (requireGovernance caller : Fn D Unit).run env s = .ok ((), s) := by
  have hpause : (rejectIf (s.inst .paused () = some true) .contractPaused : Fn D Unit).run env s =
      .ok ((), s) := by rw [run_rejectIf, if_neg g.unpaused]
  rw [requireGovernance, run_bind_ok _ _ g.requireInitialized_run, run_bind_ok _ _ g.requireAuth_run,
    run_bind_ok _ _ (run_load ..), run_bind_ok _ _ hpause, g.admitted]

/-- `execute_proposal` performs the action, and marks the proposal. -/
theorem Governs.settled_executeProposal {id : ℕ} {action : ProposalAction}
    (he : enacted s env.timestamp id = some action) :
    SameStorage (settled (exec H (.executeProposal caller id)) env s)
      (settled (performAction H caller action) env s) := by
  obtain ⟨p, hp, hact⟩ := Option.bind_eq_some_iff.1 he
  obtain ⟨hok, rfl⟩ : (_ ∧ _) ∧ p.action = action := by
    split_ifs at hact with hok
    exact ⟨hok, Option.some.inj hact⟩
  have howner : (rejectIf (¬decide ((rosterOf s).IsOwner caller) = true) .callerNotOwner :
      Fn D Unit).run env s =
      .ok ((), s) := by rw [run_rejectIf, if_neg (by simpa using g.owner)]
  have hprop : (unwrapOr (s.inst .proposal id) .eventDoesNotExist : Fn D Proposal).run env s =
      .ok (p, s) := by rw [hp]; rfl
  have hneeded : (getRequiredSignatures : Fn D ℕ).run env s =
      .ok ((s.inst .requiredSignatures ()).getD 1, s) := rfl
  rw [exec, settled_map, settled, executeProposal, run_bind_ok _ _ g.requireAuth_run,
    run_bind_ok _ _ isAddrOwner_run, run_bind_ok _ _ howner, run_bind_ok _ _ (run_load ..),
    run_bind_ok _ _ hprop, run_bind_ok _ _ (run_getEnv ..), run_bind_ok _ _ hneeded, doIf,
    if_pos (by simpa using hok)]
  rcases hrun : (performAction H caller p.action).run env s with e | ⟨u, s₁⟩
  · rw [run_bind_error _ _ hrun, settled_error hrun]
    exact .refl s
  · rw [run_bind_ok _ _ hrun, settled_ok hrun]
    exact .put_proposal s₁

/-! ### Owners -/

theorem Governs.transferOwnership_run {b c : Address} (hc : s.inst .owner () = some c)
    (hnull : b ≠ nullAccount) (hne : b ≠ c) :
    ∃ n, (transferOwnership caller b).run env s = .ok ((), (handedOverTo s c b).publish n) := by
  have hcurrent : (unwrap (s.inst .owner ()) : Fn D Address).run env s = .ok (c, s) := by rw [hc]; rfl
  have hnz : (rejectIf (b = nullAccount) .newOwnerIsZero : Fn D Unit).run env s = .ok ((), s) := by
    rw [run_rejectIf, if_neg hnull]
  have hns : (rejectIf (b = c) .sameOwner : Fn D Unit).run env s = .ok ((), s) := by
    rw [run_rejectIf, if_neg hne]
  refine ⟨⟨["governance", "transfer_ownership"], [.addr caller, .addr c, .addr b]⟩, ?_⟩
  rw [transferOwnership, run_bind_ok _ _ g.requireGovernance_run, run_bind_ok _ _ (run_load ..),
    run_bind_ok _ _ hcurrent, run_bind_ok _ _ hnz, run_bind_ok _ _ hns]
  have howners : (getOwners : Fn D (List Address)).run env (s.put .owner () b) =
      .ok ((s.inst .owners ()).getD [], s.put .owner () b) := by simp [getOwners, run_bind, Except.bind]
  rw [run_bind_ok _ _ (run_store ..), run_bind_ok _ _ howners, run_bind_ok _ _ (run_store ..)]
  by_cases hrbac : (s.inst .rbacEnabled ()).getD false = true
  · by_cases hrole : s.inst .role c = some .admin
    · simp [handedOverTo, rbacEnabled, getRoleOf, run_bind, Except.bind, run_doIf, hrbac, hrole,
        Ne.symm hne]
    · simp [handedOverTo, rbacEnabled, getRoleOf, run_bind, Except.bind, run_doIf, hrbac, hrole,
        Ne.symm hne]
  · simp [handedOverTo, rbacEnabled, run_bind, Except.bind, run_doIf, hrbac]

theorem Governs.transferOwnership_refused {b c : Address} (hc : s.inst .owner () = some c)
    (hb : b = nullAccount ∨ b = c) : settled (transferOwnership caller b) env s = s := by
  have hcurrent : (unwrap (s.inst .owner ()) : Fn D Address).run env s = .ok (c, s) := by rw [hc]; rfl
  rw [settled, transferOwnership, run_bind_ok _ _ g.requireGovernance_run, run_bind_ok _ _ (run_load ..),
    run_bind_ok _ _ hcurrent]
  by_cases hnull : b = nullAccount
  · rw [run_bind_error _ _ (e := .contract .newOwnerIsZero)]
    rw [run_rejectIf, if_pos hnull]
  · have hsame : b = c := hb.resolve_left hnull
    have hnz : (rejectIf (b = nullAccount) .newOwnerIsZero : Fn D Unit).run env s = .ok ((), s) := by
      rw [run_rejectIf, if_neg hnull]
    rw [run_bind_ok _ _ hnz, run_bind_error _ _ (e := .contract .sameOwner)]
    rw [run_rejectIf, if_pos hsame]

/-- The list of owners and the roles are written by the direct call only. -/
theorem Governs.agrees_transferOwnership {b : Address} :
    SameStorage (settled (performAction H caller (.transferOwnership b)) env s)
      (settled (exec H (.transferOwnership caller b)) env s) ↔
    (ProposalAction.transferOwnership b).faithful s := by
  obtain ⟨c, hc⟩ := Option.isSome_iff_exists.1 g.deployed.owner
  obtain ⟨owners, howners⟩ := Option.isSome_iff_exists.1 g.deployed.owners
  have hroster : (rosterOf s).owner = some c := hc
  have hlist : (rosterOf s).owners = owners := by simp [rosterOf, howners]
  have hperform : settled (performAction H caller (.transferOwnership b)) env s = s.put .owner () b :=
    settled_ok rfl
  rw [hperform, exec, settled_map]
  simp only [ProposalAction.faithful, hroster, hlist, Option.some.injEq, forall_eq']
  by_cases hbc : b = c
  · subst hbc
    rw [g.transferOwnership_refused hc (Or.inr rfl)]
    exact iff_of_true ((SameStorage.refl s).put hc).symm (Or.inl rfl)
  by_cases hnull : b = nullAccount
  · rw [g.transferOwnership_refused hc (Or.inl hnull)]
    refine iff_of_false (fun h => ?_) ?_
    · have hown := congrFun (h.inst .owner (by simp)) ()
      rw [hc] at hown
      simp only [Ledger.put_inst, Store.set_same, Function.update_self, Option.some.injEq] at hown
      exact hbc hown
    · rintro (h | ⟨h, -⟩)
      · exact hbc h.symm
      · exact h hnull
  obtain ⟨n, hrun⟩ := g.transferOwnership_run hc hnull hbc
  rw [settled_ok hrun]
  have hrbac : (rosterOf s).rbac = (s.inst .rbacEnabled ()).getD false := rfl
  rw [hrbac]
  simp only [Ne, Ne.symm hbc, hnull, not_false_eq_true, true_and, false_or, handedOverTo, howners,
    Option.getD_some]
  constructor
  · intro h
    have hsame : owners = owners.replace c b := by
      have := congrFun (h.inst .owners (by simp)) ()
      split_ifs at this <;> simpa [howners] using this
    refine ⟨(Roster.replace_eq_self hbc).1 hsame.symm, fun hon => ?_⟩
    have hroles := h.inst .role (by simp)
    rw [if_pos hon] at hroles
    split_ifs at hroles with hadmin
    · have hgone := congrFun hroles c
      simp [hadmin] at hgone
    · refine ⟨?_, hadmin⟩
      have hnew := congrFun hroles b
      show s.inst .role b = some Role.admin
      simpa using hnew
  · rintro ⟨hmem, hroles⟩
    have hlisted : (s.put .owner () b).inst .owners () = some (owners.replace c b) := by
      rw [Ledger.put_inst_ne _ (by simp), howners, (Roster.replace_eq_self hbc).2 hmem]
    have hbase := (SameStorage.refl (s.put .owner () b)).put hlisted
    refine SameStorage.publish ?_
    split_ifs with hon hadmin
    · exact absurd hadmin (hroles hon).2
    · refine hbase.put ?_
      rw [Ledger.put_inst_ne _ (by simp)]
      exact (hroles hon).1
    · exact hbase

/-- What `add_owner` stores for a new owner. -/
theorem Governs.addOwner_run {b : Address} {owners : List Address}
    (howners : s.inst .owners () = some owners)
    (hnull : b ≠ nullAccount) (hb : b ∉ owners) :
    ∃ n, (addOwner caller b).run env s = .ok ((), (if (s.inst .rbacEnabled ()).getD false = true then
      (s.put .owners () (owners ++ [b])).put .role b .admin
      else s.put .owners () (owners ++ [b])).publish n) := by
  have hnz : (rejectIf (b = nullAccount) .newOwnerIsZero : Fn D Unit).run env s = .ok ((), s) := by
    rw [run_rejectIf, if_neg hnull]
  refine ⟨⟨["owner_added"], [.addr b]⟩, ?_⟩
  rw [addOwner, run_bind_ok _ _ g.requireAuth_run, run_bind_ok _ _ g.admitted, run_bind_ok _ _ hnz]
  by_cases hrbac : (s.inst .rbacEnabled ()).getD false = true
  · simp [getOwners, rbacEnabled, run_bind, Except.bind, run_doIf, howners, hb, hrbac]
  · simp [getOwners, rbacEnabled, run_bind, Except.bind, run_doIf, howners, hb, hrbac]

/-- The role is written by the direct call only. -/
theorem Governs.agrees_addOwner {b : Address} :
    SameStorage (settled (performAction H caller (.addOwner b)) env s)
      (settled (exec H (.addOwner caller b)) env s) ↔ (ProposalAction.addOwner b).faithful s := by
  obtain ⟨owners, howners⟩ := Option.isSome_iff_exists.1 g.deployed.owners
  have hlist : (rosterOf s).owners = owners := by simp [rosterOf, howners]
  have hrbac : (rosterOf s).rbac = (s.inst .rbacEnabled ()).getD false := rfl
  have hperform : settled (performAction H caller (.addOwner b)) env s =
      if b ∈ owners then s else s.put .owners () (owners ++ [b]) := by
    by_cases hb : b ∈ owners <;>
      simp [settled, performAction, getOwners, run_bind, Except.bind, run_doIf, howners, hb]
  rw [hperform, exec, settled_map]
  simp only [ProposalAction.faithful, hlist, hrbac]
  by_cases hb : b ∈ owners
  · -- nothing is added by either
    have hdirect : settled (addOwner caller b) env s = s := by
      rw [settled, addOwner, run_bind_ok _ _ g.requireAuth_run, run_bind_ok _ _ g.admitted]
      by_cases hnull : b = nullAccount <;>
        simp [getOwners, run_bind, Except.bind, run_rejectIf, run_doIf, howners, hb, hnull]
    rw [if_pos hb, hdirect]
    exact iff_of_true (.refl s) (Or.inl hb)
  rw [if_neg hb]
  by_cases hnull : b = nullAccount
  · have hdirect : settled (addOwner caller b) env s = s := by
      rw [settled, addOwner, run_bind_ok _ _ g.requireAuth_run, run_bind_ok _ _ g.admitted,
        run_bind_error _ _ (e := .contract .newOwnerIsZero)]
      rw [run_rejectIf, if_pos hnull]
    rw [hdirect]
    refine iff_of_false (fun h => ?_) ?_
    · have hsame := congrFun (h.inst .owners (by simp)) ()
      simp [howners] at hsame
    · rintro (h | ⟨h, -⟩)
      · exact hb h
      · exact h hnull
  obtain ⟨n, hrun⟩ := g.addOwner_run howners hnull hb
  rw [settled_ok hrun]
  simp only [Ne, hb, hnull, not_false_eq_true, true_and, false_or]
  constructor
  · intro h hon
    have hrole := congrFun (h.inst .role (by simp)) b
    rw [if_pos hon] at hrole
    show s.inst .role b = some Role.admin
    simpa using hrole
  · intro hrole
    refine SameStorage.publish ?_
    split_ifs with hon
    · refine (SameStorage.refl _).put ?_
      rw [Ledger.put_inst_ne _ (by simp)]
      exact hrole hon
    · exact .refl _

/-- What `remove_owner` stores when the owner is listed. -/
theorem Governs.removeOwner_run {b : Address} {owners rest : List Address}
    (howners : s.inst .owners () = some owners) (hrest : owners.filter (· ≠ b) = rest) (hb : b ∈ owners) :
    ∃ n, (removeOwner caller b).run env s =
      .ok ((), ((if (s.inst .requiredSignatures ()).getD 1 > rest.length then
        s.put .requiredSignatures () rest.length else s).put .owners () rest).publish n) := by
  have hget : (getOwners : Fn D (List Address)).run env s = .ok (owners, s) := by
    simp [getOwners, run_bind, Except.bind, howners]
  have hreq : (getRequiredSignatures : Fn D ℕ).run env s =
      .ok ((s.inst .requiredSignatures ()).getD 1, s) := rfl
  have hrepair : (doIf ((s.inst .requiredSignatures ()).getD 1 > rest.length)
      (set .requiredSignatures () rest.length) : Fn D Unit).run env s =
      .ok ((), if (s.inst .requiredSignatures ()).getD 1 > rest.length then
        s.put .requiredSignatures () rest.length else s) := by
    rw [run_doIf]; split_ifs <;> rfl
  refine ⟨⟨["owner_removed"], [.addr b]⟩, ?_⟩
  subst hrest
  rw [removeOwner, run_bind_ok _ _ g.requireAuth_run, run_bind_ok _ _ g.admitted, run_bind_ok _ _ hget,
    run_doIf, if_pos hb, run_bind_ok _ _ hreq, run_bind_ok _ _ hrepair]
  rfl

/-- The threshold is repaired by the direct call only. -/
theorem Governs.agrees_removeOwner {b : Address} :
    SameStorage (settled (performAction H caller (.removeOwner b)) env s)
      (settled (exec H (.removeOwner caller b)) env s) ↔ (ProposalAction.removeOwner b).faithful s := by
  obtain ⟨owners, howners⟩ := Option.isSome_iff_exists.1 g.deployed.owners
  have hlist : (rosterOf s).owners = owners := by simp [rosterOf, howners]
  obtain ⟨rest, hrest⟩ : ∃ rest, owners.filter (· ≠ b) = rest := ⟨_, rfl⟩
  have hwithout : (rosterOf s).without b = rest := by rw [Roster.without, hlist, hrest]
  have hperform : settled (performAction H caller (.removeOwner b)) env s = s.put .owners () rest := by
    rw [← hrest]
    simp [settled, performAction, getOwners, run_bind, Except.bind, howners]
  rw [hperform, exec, settled_map]
  simp only [ProposalAction.faithful, hlist, hwithout]
  by_cases hb : b ∈ owners
  · obtain ⟨n, hrun⟩ := g.removeOwner_run howners hrest hb
    rw [settled_ok hrun]
    simp only [hb, forall_true_left]
    constructor
    · intro h
      by_contra hle
      have hlt : rest.length < (s.inst .requiredSignatures ()).getD 1 := not_le.1 hle
      have hsame := congrFun (h.inst .requiredSignatures (by simp)) ()
      rw [if_pos hlt] at hsame
      rcases hr : s.inst .requiredSignatures () with _ | r
      · simp [hr] at hsame
      · rw [hr, Option.getD_some] at hlt
        have heq : r = rest.length := by simpa [hr] using hsame
        exact absurd heq (ne_of_gt hlt)
    · intro hle
      have hnot : ¬(s.inst .requiredSignatures ()).getD 1 > rest.length := not_lt.2 hle
      rw [if_neg hnot]
      exact (SameStorage.refl _).publish
  · have hdirect : settled (removeOwner caller b) env s = s := by
      rw [settled, removeOwner, run_bind_ok _ _ g.requireAuth_run, run_bind_ok _ _ g.admitted]
      simp [getOwners, run_bind, Except.bind, run_doIf, howners, hb]
    have hall : rest = owners := by
      rw [← hwithout, Roster.without_of_not_mem (by rw [hlist]; exact hb), hlist]
    rw [hdirect, hall]
    exact iff_of_true ((SameStorage.refl s).put howners).symm fun h => absurd h hb

/-! ### Settings -/

/-- The bounds are checked by the direct call only. -/
theorem Governs.agrees_setRequiredSignatures {n : ℕ} :
    SameStorage (settled (performAction H caller (.setRequiredSignatures n)) env s)
      (settled (exec H (.setRequiredSignatures caller n)) env s) ↔
    (ProposalAction.setRequiredSignatures n).faithful s := by
  have hget : (getOwners : Fn D (List Address)).run env s = .ok ((rosterOf s).owners, s) := rfl
  have hperform : settled (performAction H caller (.setRequiredSignatures n)) env s =
      s.put .requiredSignatures () n := settled_ok rfl
  rw [hperform, exec, settled_map, settled, setRequiredSignatures, run_bind_ok _ _ g.requireAuth_run,
    run_bind_ok _ _ g.admitted, run_bind_ok _ _ hget, run_doIf]
  simp only [ProposalAction.faithful]
  by_cases hn : 1 ≤ n ∧ n ≤ (rosterOf s).owners.length
  · rw [if_pos (by omega)]
    exact iff_of_true (SameStorage.refl _).publish (Or.inl hn)
  · rw [if_neg (by omega)]
    simp only [hn, false_or]
    constructor
    · intro h
      have hsame := congrFun (h.inst .requiredSignatures (by simp)) ()
      simpa using hsame.symm
    · intro h
      exact ((SameStorage.refl s).put h).symm

theorem Governs.totalEvents_run : (totalEvents : Fn D ℕ).run env s = .ok (totalOf s, s) := by
  rw [totalEvents, run_bind_ok _ _ g.requireInitialized_run, run_bind_ok _ _ (run_load ..),
    run_bind_ok _ _ (run_load ..), run_pure, totalOf]
  rcases s.inst .runtimeState () with _ | rs <;> rfl

/-- The count is checked, and the two copies are written, by the direct call only. -/
theorem Governs.agrees_setGlobalMaxLogs {v : ℕ} :
    SameStorage (settled (performAction H caller (.setGlobalMaxLogs v)) env s)
      (settled (exec H (.setGlobalMaxLogs caller v)) env s) ↔
    (ProposalAction.setGlobalMaxLogs v).faithful s := by
  obtain ⟨cfg, hcfg⟩ := Option.isSome_iff_exists.1 g.deployed.config
  have hperform : settled (performAction H caller (.setGlobalMaxLogs v)) env s =
      s.put .config () { cfg with globalMaxLogs := v } := by
    simp [settled, performAction, run_bind, Except.bind, hcfg, ifSome]
  rw [hperform, exec, settled_map, settled, setGlobalMaxLogs, run_bind_ok _ _ g.requireGovernance_run,
    run_bind_ok _ _ g.totalEvents_run]
  simp only [ProposalAction.faithful, hcfg, Option.some.injEq, forall_eq']
  by_cases hlt : v < totalOf s
  · rw [if_pos hlt, run_bind_error _ _ (e := .contract .maxLogsBelowCurrentCount)
      (by rw [run_rejectIf, if_pos hlt])]
    constructor
    · intro h
      have hsame := congrFun (h.inst .config (by simp)) ()
      rw [hcfg] at hsame
      simp at hsame
      rw [← hsame]
    · rintro rfl
      exact ((SameStorage.refl s).put hcfg).symm
  · have hok : (rejectIf (v < totalOf s) .maxLogsBelowCurrentCount : Fn D Unit).run env s =
        .ok ((), s) := by
      rw [run_rejectIf, if_neg hlt]
    have hconfig : (unwrap (s.inst .config ()) : Fn D Config).run env s = .ok (cfg, s) := by
      rw [hcfg]; rfl
    rw [if_neg hlt, run_bind_ok _ _ hok, run_bind_ok _ _ (run_load ..), run_bind_ok _ _ hconfig]
    rcases hrs : s.inst .runtimeState () with _ | rs
    · simp only [syncRuntimeState, run_bind, Except.bind, run_store, run_load, ifSome, run_publish,
        Ledger.put_inst, ne_eq, reduceCtorEq, not_false_eq_true, Store.set_ne, hrs, run_pure]
      constructor
      · intro h
        have hmax := congrFun (h.inst .globalMaxLogs (by simp)) ()
        exact ⟨by simpa using hmax, by simp⟩
      · rintro ⟨hmax, -⟩
        exact ((SameStorage.refl _).put (by simpa using hmax)).publish
    · simp only [syncRuntimeState, run_bind, Except.bind, run_store, run_load, ifSome, run_publish,
        Ledger.put_inst, ne_eq, reduceCtorEq, not_false_eq_true, Store.set_ne, hrs, Option.some.injEq,
        forall_eq']
      constructor
      · intro h
        have hmax := congrFun (h.inst .globalMaxLogs (by simp)) ()
        have hcopy := congrFun (h.inst .runtimeState (by simp)) ()
        refine ⟨by simpa using hmax, ?_⟩
        simp [hrs] at hcopy
        rw [hcopy]
      · rintro ⟨hmax, hcopy⟩
        refine (((SameStorage.refl _).put (by simpa using hmax)).put ?_).publish
        subst hcopy
        simpa using hrs

/-- **Performing an action leaves what the direct call leaves, exactly when the action is faithful.** -/
theorem Governs.agrees {action : ProposalAction} :
    SameStorage (settled (performAction H caller action) env s)
      (settled (exec H (action.direct caller)) env s) ↔ action.faithful s := by
  cases action with
  | transferOwnership b => exact g.agrees_transferOwnership
  | addOwner b => exact g.agrees_addOwner
  | removeOwner b => exact g.agrees_removeOwner
  | setRequiredSignatures n => exact g.agrees_setRequiredSignatures
  | setGlobalMaxLogs v => exact g.agrees_setGlobalMaxLogs
  | setMetadataSchema t schema =>
    refine iff_of_true ?_ trivial
    have hperform : settled (performAction H caller (.setMetadataSchema t schema)) env s =
        s.put .metadataSchema t schema := settled_ok rfl
    rw [hperform, ProposalAction.direct, exec, settled_map, settled, setMetadataSchema,
      run_bind_ok _ _ g.requireGovernance_run, run_bind_ok _ _ (run_store ..)]
    exact (SameStorage.refl _).publish
  | rollbackEvent i v =>
    refine iff_of_true ?_ trivial
    rw [performAction, ProposalAction.direct, exec, settled_map, settled_map]
    exact .refl _
  | pause =>
    refine iff_of_true ?_ trivial
    have hperform : settled (performAction H caller .pause) env s = s.put .paused () true :=
      settled_ok rfl
    rw [hperform, ProposalAction.direct, exec, settled_map, settled, pause,
      run_bind_ok _ _ g.requireCaller_run, run_bind_ok _ _ (run_store ..)]
    exact (SameStorage.refl _).publish
  | unpause =>
    refine iff_of_true ?_ trivial
    have hperform : settled (performAction H caller .unpause) env s = s.put .paused () false :=
      settled_ok rfl
    rw [hperform, ProposalAction.direct, exec, settled_map, settled, unpause,
      run_bind_ok _ _ g.requireCaller_run, run_bind_ok _ _ (run_store ..),
      run_bind_ok _ _ (run_clear ..)]
    refine ((SameStorage.refl _).del ?_).publish
    simpa using g.deployed.pausedSince

end

/-- **A proposal and the direct call agree exactly when the action is faithful.**  In every reachable
    state in which the contract is not paused, for an owner that passes the owner check: executing
    the approved proposal leaves the storage that the direct call leaves, apart from the proposal. -/
theorem enactment_agrees_iff {caller : Address} {id : ℕ} {action : ProposalAction}
    (hreach : Reachable H s)
    (hunpaused : s.inst .paused () ≠ some true) (hauth : env.auth caller = true)
    (howner : (rosterOf s).IsOwner caller)
    (hadmitted : (requireOwnerOrMultisig caller : Fn D Unit).run env s = .ok ((), s))
    (he : enacted s env.timestamp id = some action) :
    SameStorage (settled (exec H (.executeProposal caller id)) env s)
      (settled (exec H (action.direct caller)) env s) ↔ action.faithful s := by
  have g : Governs env s caller := ⟨deployed_of_reachable hreach, hunpaused, hauth, howner, hadmitted⟩
  have hperformed := g.settled_executeProposal (H := H) he
  rw [← g.agrees (H := H)]
  constructor
  · intro h
    exact hperformed.symm.trans h
  · intro h
    exact hperformed.trans h

/-- The owner proposes to add another. -/
def addOwnerScript : List (Env × Op Bytes) :=
  [(openEnv 11, .submitProposal (account 65) (.addOwner (account 66)) 100)]

theorem enactment_agrees_iff_addOwnerScript : ∃ s, Reachable plainHost s ∧
    ¬(rosterOf s).IsOwner (account 66) ∧
    SameStorage (settled (exec plainHost (.executeProposal (account 65) 0)) (openEnv 12) s)
      (settled (exec plainHost (.addOwner (account 65) (account 66))) (openEnv 12) s) := by
  let s₀ : State Bytes := deployed (openEnv 10) (account 65) 100 50
  obtain ⟨s, hs⟩ : ∃ s, play plainHost s₀ addOwnerScript = some s :=
    Option.isSome_iff_exists.1 (by decide)
  have after : (play plainHost s₀ addOwnerScript).map (fun s =>
      (s.inst .paused (), (rosterOf s).rbac, decide ((rosterOf s).IsOwner (account 65)),
        decide ((rosterOf s).IsOwner (account 66)), enacted s 12 0)) =
      some (some false, false, true, false, some (.addOwner (account 66))) := by decide
  rw [hs] at after
  simp only [Option.map_some, Option.some.injEq, Prod.mk.injEq, decide_eq_true_eq,
    decide_eq_false_iff_not]
    at after
  obtain ⟨hpaused, hrbac, howner, hnot, he⟩ := after
  have hreach : Reachable plainHost s := ⟨_, history_of_play (init_deployed rfl 100 50) hs⟩
  have hadmitted : (requireOwnerOrMultisig (account 65)).run (openEnv 12) s = .ok ((), s) := by
    rw [requireOwnerOrMultisig_run, if_neg (by rw [hrbac]; simp), if_pos howner]
  refine ⟨s, hreach, hnot, ?_⟩
  refine (enactment_agrees_iff hreach (by rw [hpaused]; simp) rfl howner hadmitted he).2 (Or.inr ?_)
  refine ⟨by decide, fun hon => ?_⟩
  rw [hrbac] at hon
  cases hon

/-- The only owner proposes that nine signatures be required. -/
def signaturesScript : List (Env × Op Bytes) :=
  [(openEnv 11, .submitProposal (account 65) (.setRequiredSignatures 9) 100)]

/-- The direct call ignores a threshold above the number of owners, and the proposal stores it. -/
theorem enacted_threshold_differs : ∃ s, Reachable plainHost s ∧ s.inst .paused () = some false ∧
    (requireOwnerOrMultisig (account 65)).run (openEnv 12) s = .ok ((), s) ∧
    enacted s 12 0 = some (.setRequiredSignatures 9) ∧
    (settled (exec plainHost (.setRequiredSignatures (account 65) 9)) (openEnv 12) s).inst
      .requiredSignatures () = none ∧
    (settled (exec plainHost (.executeProposal (account 65) 0)) (openEnv 12) s).inst
      .requiredSignatures () = some 9 ∧
    ¬SameStorage (settled (exec plainHost (.executeProposal (account 65) 0)) (openEnv 12) s)
      (settled (exec plainHost (.setRequiredSignatures (account 65) 9)) (openEnv 12) s) := by
  let s₀ : State Bytes := deployed (openEnv 10) (account 65) 100 50
  obtain ⟨s, hs⟩ : ∃ s, play plainHost s₀ signaturesScript = some s :=
    Option.isSome_iff_exists.1 (by decide)
  have after : (play plainHost s₀ signaturesScript).map (fun s =>
      (s.inst .paused (), (rosterOf s).rbac, decide ((rosterOf s).IsOwner (account 65)), enacted s 12 0)) =
      some (some false, false, true, some (.setRequiredSignatures 9)) := by decide
  have results : (play plainHost s₀ signaturesScript).map (fun s =>
      ((settled (exec plainHost (.setRequiredSignatures (account 65) 9)) (openEnv 12) s).inst
        .requiredSignatures (),
      (settled (exec plainHost (.executeProposal (account 65) 0)) (openEnv 12) s).inst
        .requiredSignatures ())) = some (none, some 9) := by decide
  rw [hs] at after results
  simp only [Option.map_some, Option.some.injEq, Prod.mk.injEq, decide_eq_true_eq] at after results
  obtain ⟨hpaused, hrbac, howner, he⟩ := after
  obtain ⟨hdirect, hperformed⟩ := results
  refine ⟨s, ⟨_, history_of_play (init_deployed rfl 100 50) hs⟩, hpaused, ?_, he, hdirect, hperformed, ?_⟩
  · rw [requireOwnerOrMultisig_run, if_neg (by rw [hrbac]; simp), if_pos howner]
  · intro h
    have hsame := congrFun (h.inst .requiredSignatures (by simp)) ()
    rw [hdirect, hperformed] at hsame
    cases hsame

end AuditLedger
