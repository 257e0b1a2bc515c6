/-
  AuditLedger — what blocks an erasure.

  The decision on a request checks the category of the event, its holds and its
  exceptions, and then rewrites the event with `update_event`, which checks more:
  the schema of the event's type may turn empty metadata away.  The sweep checks
  the same and rewrites in the same way.

  * `LogInv.returns_processErasureRequest`: which approvals return;
  * `unblocked_iff`: when the checks of the decision are all that matters.
-/
import AuditTransparency.Ledger.Compliance

namespace AuditLedger

open Soroban
open Soroban.Call hiding hasPers publish

variable {D : Type} [DecidableEq D] {H : Host D} {env : Env} {s s' : State D} {L : List (Entry D)}
  {R : List Record} {op : Op D} {r : Ret D} {act : Action D} {caller : Address} {i id : ℕ}
  {q : ErasureRequestData}

/-! ## Requests -/

/-- Every request is about an event of the log. -/
def Requested (s : State D) : Prop :=
  ∀ id q, s.inst .erasureRequest id = some q → (eventAt s q.eventIndex).isSome

theorem isSome_eventAt (h : HasLog H s R) : (eventAt s i).isSome ↔ i < R.length := by
  rw [← Option.isSome_map (f := Event.record), h.eventAt, isSome_getElem?]

/-- No event leaves the log. -/
theorem step_isSome_eventAt (hinj : Function.Injective H.sha256) (h : HasLog H s R) (hs : Step H env op s r s')
    (hi : (eventAt s i).isSome) : (eventAt s' i).isSome := by
  rw [isSome_eventAt h] at hi
  rw [isSome_eventAt (step_hasLog hinj h hs), List.length_append, length_amendAll]
  omega

theorem step_requested (hinj : Function.Injective H.sha256) (h : HasLog H s R) (hs : Step H env op s r s')
    (hreq : Requested s) : Requested s' := by
  -- the requests of `s`, and perhaps one more about an event of `s`
  suffices hold : ∀ id q, s'.inst .erasureRequest id = some q → (eventAt s q.eventIndex).isSome from
    fun id q hq => step_isSome_eventAt hinj h hs (hold id q hq)
  cases op with
  | requestErasure a k reason =>
    obtain ⟨_, hrun, -⟩ := of_run_map env s hs
    have hpost : Post (requestErasure a k reason) (fun _ s' => ∀ id q, s'.inst .erasureRequest id = some q →
        (eventAt s q.eventIndex).isSome) env s := by
      simp only [requestErasure, post_bind, post_pure, post_rejectIf, post_load, post_getEnv, post_store,
        post_publish, post_addChecked]
      refine post_reads fun _ _ => post_reads fun _ _ => post_getEventByOrder fun e he _ =>
        post_reads fun _ _ _ _ id q hq => ?_
      by_cases hid : id = (s.inst .erasureRequestCount ()).getD 0
      · subst hid
        obtain rfl := Option.some.inj ((by simpa using hq) : some _ = some q)
        exact Option.isSome_iff_exists.2 ⟨e, he⟩
      · exact hreq id q (by simpa [Function.update_of_ne hid] using hq)
    exact hpost.of_run hrun
  | processErasureRequest a k approve j =>
    obtain ⟨_, hrun, -⟩ := of_run_map env s hs
    have hpost : Post (processErasureRequest H a k approve j) (fun _ s' => ∀ id q,
        s'.inst .erasureRequest id = some q → (eventAt s q.eventIndex).isSome) env s := by
      -- the request keeps its event
      have hset : ∀ {t : State D} {q q' : ErasureRequestData} (n : Published D),
          t.inst .erasureRequest = s.inst .erasureRequest → s.inst .erasureRequest k = some q →
          q'.eventIndex = q.eventIndex → ∀ id p,
          ((t.put .erasureRequest k q').publish n).inst .erasureRequest id = some p →
          (eventAt s p.eventIndex).isSome := by
        intro t q q' n hsame hq heq id p hp
        by_cases hid : id = k
        · subst hid
          obtain rfl := Option.some.inj ((by simpa using hp) : some q' = some p)
          rw [heq]
          exact hreq id q hq
        · exact hreq id p (by simpa [Function.update_of_ne hid, hsame] using hp)
      simp only [processErasureRequest, post_bind, post_load, post_unwrapOr, post_rejectIf, post_doIf,
        post_getEnv, post_store, post_publish]
      refine post_reads fun _ _ q hq _ => ⟨fun _ => ?_, fun _ => hset _ rfl hq rfl⟩
      refine post_getEventByOrder fun e _ _ => post_reads fun _ _ _ => post_reads fun _ _ _ => ?_
      refine Post.with_frame (L := layout D) (W := .erasureRecord :: rewriteWrites) fun _ t _ hf => ?_
      exact hset _ (hf.inst (notMem_of_eval rfl)) hq rfl
    exact hpost.of_run hrun
  | _ =>
    intro id q hq
    rw [((exec_writes H _).of_run hs).inst (notMem_of_eval rfl)] at hq
    exact hreq id q hq

theorem requested_of_history (hinj : Function.Injective H.sha256) {tr : List (State D × Action D)}
    (h : History H tr s) : Requested s := by
  obtain ⟨s₀, h₀, hrun⟩ := h
  obtain ⟨g, m, hinit⟩ := initialized_of_init h₀
  refine (hrun.invariant (C := fun _ _ => True) (I := fun s => (∃ R, HasLog H s R) ∧ Requested s)
    ⟨⟨[], hinit.hasLog⟩, fun id q hq => ?_⟩ ?_ fun _ _ => trivial).2
  · rw [(hinit.absent (f := .erasureRequest) (by simp) id).1] at hq
    cases hq
  · rintro s a s' - hn ⟨⟨R, hR⟩, hreq⟩
    refine ⟨⟨_, next_hasLog hinj hR hn⟩, ?_⟩
    cases a with
    | call env op =>
      obtain ⟨r, hs⟩ := hn
      exact step_requested hinj hR hs hreq
    | expireTemporary f k | expirePersistent f k =>
      rw [Next] at hn
      subst hn
      exact hreq

/-! ## Decisions -/

/-- The event at `i` has an active compliance exception. -/
def exemptAt (s : State D) (now i : ℕ) : Bool :=
  ((s.inst .complianceException i).map fun c => decide (c.expiresAt = 0 ∨ c.expiresAt > now)).getD false

/-- **Nothing stands against the erasure** of the event at `i`. -/
structure Unblocked (s : State D) (now i : ℕ) : Prop where
  category : ∀ e, eventAt s i = some e → e.category ≠ operationalCategory
  hold : heldAt s i = false
  exception : exemptAt s now i = false

/-- **An approval returns** when nothing stands against the erasure, and the event may be emptied. -/
theorem LogInv.returns_processErasureRequest (h : LogInv H s L) (ha : Authorised env s caller)
    (hq : s.inst .erasureRequest id = some q) (hpending : q.status = .pending)
    (hevent : (eventAt s q.eventIndex).isSome) (justification : Bytes) :
    Returns (processErasureRequest H caller id true justification) (fun _ _ => True) env s ↔
      Unblocked s env.timestamp q.eventIndex ∧ Emptiable s q.eventIndex := by
  obtain ⟨e, he⟩ := Option.isSome_iff_exists.1 hevent
  have hat := he
  rw [h.holds.eventAt_eq] at hat
  obtain ⟨p, hp, rfl⟩ := Option.map_eq_some_iff.1 hat
  have hunblocked : Unblocked s env.timestamp q.eventIndex ↔ p.2.category ≠ operationalCategory ∧
      ¬heldAt s q.eventIndex = true ∧ ¬exemptAt s env.timestamp q.eventIndex = true := by
    constructor
    · rintro ⟨hcat, hheld, hexempt⟩
      exact ⟨hcat _ he, by simp [hheld], by simp [hexempt]⟩
    · rintro ⟨hcat, hheld, hexempt⟩
      refine ⟨fun e' he' => ?_, by simpa using hheld, by simpa using hexempt⟩
      obtain rfl := Option.some.inj (he.symm.trans he')
      exact hcat
  have hempty : Emptiable s q.eventIndex ↔ Accepts s p.2.eventType [] := by
    rw [Emptiable, he]
    simp
  rw [hunblocked, hempty]
  simp only [processErasureRequest, returns_bind, returns_of_run (ha.requireCaller_run h), returns_load, hq,
    returns_unwrapOr, Option.some.injEq, exists_eq_left', returns_rejectIf, hpending, ne_eq, not_true,
    not_false_iff, true_and, returns_doIf, returns_of_run (h.getEventByOrder_run hp), isUnderLegalHold,
    hasActiveComplianceException, returns_pure, returns_getEnv, eraseMetadata, returns_store, returns_publish,
    true_implies, h.returns_updateEvent ha hp, false_implies, and_true, heldAt, exemptAt, and_assoc]

/-- A call returns something. -/
theorem exists_step_iff {α : Type} {m : Fn D α} {g : α → Ret D} (hop : exec H op = m >>= fun a => pure (g a)) :
    (∃ r s', Step H env op s r s') ↔ Returns m (fun _ _ => True) env s := by
  unfold Step Returns
  rw [hop]
  constructor
  · rintro ⟨r, s', hr⟩
    obtain ⟨a, ha, -⟩ := of_run_map env s hr
    exact ⟨a, s', ha, trivial⟩
  · rintro ⟨a, s', ha, -⟩
    exact ⟨g a, s', by rw [run_bind_ok _ _ ha]; rfl⟩

/-- **When erasure is blocked only as documented**: an approval returns exactly when nothing stands against it, unless
    the type of an event that nothing stands against turns empty metadata away, and a sweep returns unless that of an
    event it erases does. -/
theorem unblocked_iff (hinj : Function.Injective H.sha256) {tr : List (State D × Action D)} (h : History H tr s)
    (ha : Authorised env s caller) :
    (∀ id q justification, s.inst .erasureRequest id = some q → q.status = .pending →
      (((∃ r s', Step H env (.processErasureRequest caller id true justification) s r s') ↔
          Unblocked s env.timestamp q.eventIndex) ↔
        (Unblocked s env.timestamp q.eventIndex → Emptiable s q.eventIndex))) ∧
    ∀ first batch, (∃ r s', Step H env (.runRetentionSweep caller first batch) s r s') ↔
      ∀ i, first ≤ i → i < first + windowOf (runtimeTotal s) first batch →
        expired s env.timestamp i = true → Emptiable s i := by
  obtain ⟨R, L, hL, rfl⟩ := hasLog_of_history hinj h
  constructor
  · intro id q justification hq hpending
    have hevent := requested_of_history hinj h id q hq
    rw [exists_step_iff rfl, hL.returns_processErasureRequest ha hq hpending hevent justification]
    exact and_iff_left_iff_imp
  · intro first batch
    rw [exists_step_iff rfl, hL.runtimeTotal_eq, ← hL.returns_runRetentionSweep hinj ha first batch]
    constructor
    · intro hret
      exact (hret.post (hL.post_runRetentionSweep hinj)).mono fun _ _ hswept => hswept.2
    · intro hret
      exact hret.mono fun _ _ _ => trivial

/-- The first request may be approved by the account, and nothing stands against it. -/
def Approvable (s : State Bytes) : Prop :=
  (rosterOf s).rbac = false ∧ (rosterOf s).IsOwner (account 65) ∧
    (s.inst .erasureRequest 0).map (fun q => (q.status, q.eventIndex)) = some (.pending, 0) ∧
    (eventAt s 0).map (·.category) = some "general" ∧ heldAt s 0 = false ∧ exemptAt s 200000 0 = false

instance (s : State Bytes) : Decidable (Approvable s) := inferInstanceAs (Decidable (_ ∧ _))

theorem Approvable.request {s : State Bytes} (h : Approvable s) :
    Authorised (openEnv 200000) s (account 65) ∧ ∃ q, s.inst .erasureRequest 0 = some q ∧ q.status = .pending ∧
      Unblocked s 200000 q.eventIndex := by
  obtain ⟨hrbac, howner, hrequest, hcat, hheld, hexempt⟩ := h
  obtain ⟨q, hq, hstatus⟩ := Option.map_eq_some_iff.1 hrequest
  obtain ⟨hpending, hindex⟩ := Prod.mk.inj hstatus
  refine ⟨authorised_of_owner rfl hrbac howner, q, hq, hpending, fun e he => ?_, ?_, ?_⟩
  · rw [hindex] at he
    rw [he, Option.map_some, Option.some.injEq] at hcat
    rw [hcat]
    decide
  · rw [hindex, hheld]
  · rw [hindex, hexempt]

theorem unblocked_iff_requestScript : ∃ s, Reachable plainHost s ∧ Approvable s ∧
    (∃ r s', Step plainHost (openEnv 200000) (.processErasureRequest (account 65) 0 true []) s r s') ∧
    ∃ r s', Step plainHost (openEnv 200000) (.runRetentionSweep (account 65) 0 10) s r s' := by
  let s₀ : State Bytes := deployed (openEnv 10) (account 65) 100 50
  obtain ⟨s, hs⟩ : ∃ s, play plainHost s₀ requestScript = some s := Option.isSome_iff_exists.1 (by decide +kernel)
  have hinit : Init s₀ := init_deployed rfl 100 50
  obtain ⟨g, m, hini⟩ := initialized_of_init hinit
  have facts : (play plainHost s₀ requestScript).map (fun s => decide (Approvable s)) = some true := by
    decide +kernel
  rw [hs, Option.map_some, Option.some.injEq, decide_eq_true_eq] at facts
  obtain ⟨ha, q, hq, hpending, hfree⟩ := facts.request
  have hempty : ∀ i, Emptiable s i := by
    refine fun i e _ => ⟨Nat.zero_le _, fun schema hschema => ?_⟩
    rw [inst_of_play hs (by simp [requestScript]), (hini.absent (f := .metadataSchema) (by simp) e.eventType).1]
      at hschema
    cases hschema
  obtain ⟨hprocess, hsweep⟩ := unblocked_iff Function.injective_id (history_of_play hinit hs) ha
  refine ⟨s, ⟨_, history_of_play hinit hs⟩, facts, ?_, (hsweep 0 10).2 fun i _ _ _ => hempty i⟩
  exact ((hprocess 0 q [] hq hpending).2 fun _ => hempty _).2 hfree

/-- A schema that requires a byte of metadata, after the request. -/
def schemaScript : List (Env × Op Bytes) :=
  requestScript ++ [(openEnv 13, .setMetadataSchema (account 65) "a" [1, 0, 0, 0]),
    (openEnv 14, .setDefaultRetentionDays (account 65) 1)]

/-- The failure of a call, if it fails. -/
def failureOf (H : Host D) (env : Env) (op : Op D) (s : State D) : Option (Trap ContractError) :=
  match (exec H op).run env s with
  | .error e => some e
  | .ok _ => none

theorem run_of_failureOf {e : Trap ContractError} (h : failureOf H env op s = some e) :
    (exec H op).run env s = .error e := by
  unfold failureOf at h
  split at h
  · next heq => rw [heq, Option.some.inj h]
  · cases h

/-- **A schema blocks the erasure** that nothing else stands against, and the sweep. -/
theorem erasure_blocked_by_schema : ∃ s q, Reachable plainHost s ∧ Authorised (openEnv 200000) s (account 65) ∧
    s.inst .erasureRequest 0 = some q ∧ q.status = .pending ∧ Unblocked s 200000 q.eventIndex ∧
    (exec plainHost (.processErasureRequest (account 65) 0 true [])).run (openEnv 200000) s =
      .error (.contract .metadataSchemaViolation) ∧
    (exec plainHost (.runRetentionSweep (account 65) 0 10)).run (openEnv 200000) s =
      .error (.contract .metadataSchemaViolation) := by
  let s₀ : State Bytes := deployed (openEnv 10) (account 65) 100 50
  obtain ⟨s, hs⟩ : ∃ s, play plainHost s₀ schemaScript = some s := Option.isSome_iff_exists.1 (by decide +kernel)
  have facts : (play plainHost s₀ schemaScript).map (fun s => (decide (Approvable s),
      failureOf plainHost (openEnv 200000) (.processErasureRequest (account 65) 0 true []) s,
      failureOf plainHost (openEnv 200000) (.runRetentionSweep (account 65) 0 10) s)) =
      some (true, some (.contract .metadataSchemaViolation), some (.contract .metadataSchemaViolation)) := by
    decide +kernel
  rw [hs, Option.map_some, Option.some.injEq] at facts
  simp only [Prod.mk.injEq, decide_eq_true_eq] at facts
  obtain ⟨happrovable, hprocess, hsweep⟩ := facts
  obtain ⟨ha, q, hq, hpending, hfree⟩ := happrovable.request
  exact ⟨s, q, ⟨_, history_of_play (init_deployed rfl 100 50) hs⟩, ha, hq, hpending, hfree,
    run_of_failureOf hprocess, run_of_failureOf hsweep⟩

end AuditLedger
