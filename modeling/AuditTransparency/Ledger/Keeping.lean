/-
  AuditLedger — what every call keeps of the stored events.

  An event is stored by the two write paths and by the two functions that rewrite it; an erasure,
  the sweep and a proposal go through these.

  * `step_of_storing`: what has to be shown of these functions for a property of the state after a call;
  * `Kept`: what has to be shown for a property that every call keeps, and `Kept.step` is the rule.
-/
import AuditTransparency.Ledger.Refinement

namespace AuditLedger

open Soroban
open Soroban.Call hiding hasPers publish

variable {D : Type} [DecidableEq D] {H : Host D} {env : Env} {s s' : State D} {op : Op D} {r : Ret D}
  {act : Action D} {I P : State D → Prop} {k n : ℕ} {m : Bytes} {caller : Address}

section
variable {Q : State D → Prop} (hstart : Q s)
  (hcongr : ∀ {t t' : State D}, (∀ f ∈ rewriteWrites, t'.inst f = t.inst f) → Q t → Q t')
include hstart hcongr

/-- An enacted proposal rolls an event back, or does not concern the events. -/
theorem post_performAction_of {action : ProposalAction}
    (hrollback : ∀ k v, Post (rollbackEvent H caller k v) (fun _ t => Q t) env s) :
    Post (performAction H caller action) (fun _ t => Q t) env s := by
  cases action with
  | rollbackEvent k v =>
    simp only [performAction, post_bind, post_pure]
    exact hrollback k v
  | addOwner a =>
    simp only [performAction, post_bind, post_doIf, post_store]
    exact post_reads fun _ _ => ⟨fun _ => hcongr (by simp) hstart, fun _ => hstart⟩
  | removeOwner a =>
    simp only [performAction, post_bind, post_store]
    exact post_reads fun _ _ => hcongr (by simp) hstart
  | setGlobalMaxLogs n =>
    simp only [performAction, post_bind, post_load, post_ifSome, post_store]
    exact ⟨fun _ _ => hcongr (by simp) hstart, fun _ => hstart⟩
  | transferOwnership _ | setRequiredSignatures _ | setMetadataSchema _ _ | pause | unpause =>
    exact post_store.2 (hcongr (by simp) hstart)

/-- **A call and the events**: a property of the state after it that depends on the stored events
    only is shown of the functions that store them. -/
theorem step_of_storing (hs : Step H env op s r s')
    (hsingle : ∀ x, op.submission = some x → Q s') (hbatch : ∀ items, op = .logEvents items → Q s')
    (hupdate : ∀ a k m, Post (updateEvent H a k m) (fun _ t => Q t) env s)
    (hrollback : ∀ a k v, Post (rollbackEvent H a k v) (fun _ t => Q t) env s)
    (herase : ∀ a k e reason, Post (eraseMetadata H a k e reason) (fun _ t => Q t) env s)
    (hsweep : ∀ a first n, Post ((List.range' first n).foldlM (sweepEvent H a) 0) (fun _ t => Q t) env s) :
    Q s' := by
  have of_post : Post (exec H op) (fun _ t => Q t) env s → Q s' := fun hp => hp.of_run hs
  have framed : (∀ f ∈ rewriteWrites, f ∉ op.writes) → Q s' := fun hf =>
    hcongr (((exec_writes H op).of_run hs).inst_eq hf) hstart
  cases op with
  | logEvent | logEventWithNonce | logEventSigned | logEventWithCustomKey | logOperationalAction =>
    exact hsingle _ rfl
  | logEvents items => exact hbatch items rfl
  | updateEvent a k m =>
    refine of_post ?_
    simp only [exec, post_bind, post_pure]
    exact hupdate a k m
  | rollbackEvent a k v =>
    refine of_post ?_
    simp only [exec, post_bind, post_pure]
    exact hrollback a k v
  | processErasureRequest a id approve j =>
    refine of_post ?_
    simp only [exec, processErasureRequest, post_bind, post_pure, post_load, post_unwrapOr,
      post_rejectIf, post_doIf, post_getEnv, post_store, post_publish]
    refine post_reads fun _ _ q _ _ => ⟨fun _ => ?_, fun _ => hcongr (by simp) hstart⟩
    refine post_reads fun e _ _ => post_reads fun _ _ _ => post_reads fun _ _ _ => ?_
    exact (herase _ _ _ _).mono fun _ t ht => hcongr (t := t) (by simp) ht
  | runRetentionSweep a first n =>
    refine of_post ?_
    simp only [exec, runRetentionSweep, post_bind, post_pure, post_publish]
    refine post_reads fun _ _ => post_reads fun _ _ => ?_
    exact (hsweep _ _ _).mono fun _ t ht => hcongr (t := t) (by simp) ht
  | executeProposal a id =>
    refine of_post ?_
    simp only [exec, post_bind, post_pure]
    refine post_executeProposal (fun _ => hstart) fun p _ _ => ?_
    exact (post_performAction_of hstart hcongr (hrollback _)).mono fun _ t ht n =>
      hcongr (t := t) (by simp) ht
  | _ => exact framed (apart_of_eval rfl)

end

/-- **A round of the sweep** passes over the event or erases it. -/
theorem post_sweepEvent_of {Q : State D → Prop} {c : ℕ} (hidle : Q s)
    (herase : ∀ e, Post (eraseMetadata H caller k e "retention_expired") (fun _ t => Q t) env s) :
    Post (sweepEvent H caller c k) (fun _ t => Q t) env s := by
  unfold sweepEvent
  refine post_bind_reads fun e _ => post_bind_reads fun _ _ => post_bind_reads fun _ _ =>
    post_bind_reads fun _ _ => post_bind_reads fun _ _ => ?_
  simp only [post_bind, post_getEnv, post_ite, post_pure]
  exact ⟨fun _ => hidle, fun _ => herase e⟩

/-- `P` is a property of the stored events, and every function that stores events keeps it, from
    states with `I`. -/
structure Kept (H : Host D) (I P : State D → Prop) : Prop where
  reads : ∀ {s s'}, (∀ f ∈ rewriteWrites, s'.inst f = s.inst f) → P s → P s'
  logs : ∀ {env s} (x : Submission), I s → P s →
    Post (logEventWithHierarchy H x.submitter x.eventType x.metadata x.category x.subEventType x.force)
      (fun _ s' => P s') env s
  batches : ∀ {env s} items, I s → P s → Post (logEvents H items) (fun _ s' => P s') env s
  updates : ∀ {env s} caller k m, I s → P s → Post (updateEvent H caller k m) (fun _ s' => P s') env s
  rollbacks : ∀ {env s} caller k v, I s → P s →
    Post (rollbackEvent H caller k v) (fun _ s' => P s') env s
  -- the sweep erases more than one event
  erases : ∀ {env s} caller k e reason, I s → Post (eraseMetadata H caller k e reason) (fun _ s' => I s') env s
  enters : ∀ {s} (op : Op D), I s → I (op.enter s)

namespace Kept
variable (h : Kept H I P)
include h

theorem eraseMetadata {e : Event D} {reason : Symbol} (hI : I s) (hP : P s) :
    Post (eraseMetadata H caller k e reason) (fun _ s' => P s') env s := by
  simp only [AuditLedger.eraseMetadata, post_bind, post_getEnv, post_store]
  exact (h.updates caller k [] hI hP).mono fun _ _ h₁ => h.reads (by simp) h₁

/-- The sweep, round by round. -/
theorem sweep {first : ℕ} (hI : I s) (hP : P s) :
    Post ((List.range' first n).foldlM (sweepEvent H caller) 0) (fun _ s' => P s') env s := by
  refine (post_range' (fun _ _ t => I t ∧ P t) n first 0 s ⟨hI, hP⟩ ?_).mono fun _ _ h' => h'.2
  rintro j c t - ⟨hIt, hPt⟩
  exact post_sweepEvent_of ⟨hIt, hPt⟩ fun e => (h.erases caller _ e _ hIt).and (h.eraseMetadata hIt hPt)

/-- **A call of the contract.** -/
theorem step (hI : I s) (hP : P s) (hs : Step H env op s r s') : P s' := by
  refine step_of_storing hP h.reads hs (fun x hx => ?_) (fun items hitems => ?_)
    (fun a k m => h.updates a k m hI hP) (fun a k v => h.rollbacks a k v hI hP)
    (fun a k e reason => h.eraseMetadata hI hP) fun a first n => h.sweep hI hP
  · obtain ⟨id, s₁, hrun, -, hf, -⟩ := step_single hx hs
    have henter : P (op.enter s) := h.reads (fun _ _ => by rw [Op.enter_inst]) hP
    exact h.reads (hf.inst_eq (apart_of_eval rfl)) ((h.logs x (h.enters op hI) henter).of_run hrun)
  · subst hitems
    have key : Post (exec H (.logEvents items)) (fun _ s' => P s') env s := by
      simp only [exec, post_bind, post_pure]
      exact h.batches items hI hP
    exact key.of_run hs

/-- A call, or an entry that expires. -/
theorem next (hI : I s) (hP : P s) (hn : Next H s act s') : P s' := by
  cases act with
  | call env op =>
    obtain ⟨r, hs⟩ := hn
    exact h.step hI hP hs
  | expireTemporary f k | expirePersistent f k =>
    rw [Next] at hn
    subst hn
    exact h.reads (s := s) (fun _ _ => rfl) hP

end Kept

end AuditLedger
