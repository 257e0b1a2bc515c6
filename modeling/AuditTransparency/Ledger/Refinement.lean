/-
  AuditLedger — the contract refines a log of records.

  To its readers the contract is a list of records that grows at the end and in
  which metadata can be amended.  `Op.adds` and `Op.amends` say, from the state
  before a call, what the call does to that list; `step_hasLog` says that the
  storage follows.

  * `Op.submission` are the arguments an entry point passes to the single path,
    and `step_submitted` what follows from its success;
  * `hasLog_of_reachable`: every reachable state has a log.
-/
import AuditTransparency.Ledger.Appending

namespace AuditLedger

open Soroban
open Soroban.Call hiding hasPers publish

variable {D : Type} [DecidableEq D] {H : Host D} {env : Env} {s s' : State D} {L : List (Entry D)}
  {R : List Record} {r : Ret D} {op : Op D}

/-! ## What a call does to the log -/

/-- The call of the single path an entry point makes. -/
def Op.submission : Op D → Option Submission
  | .logEvent a t m c e f => some ⟨a, t, m, c, e, f⟩
  | .logEventWithNonce a t m _ => some ⟨a, t, m, none, none, false⟩
  | .logEventSigned a t m _ => some ⟨a, t, m, none, none, false⟩
  | .logEventWithCustomKey a t m c e f _ => some ⟨a, t, m, c, e, f⟩
  | .logOperationalAction a t m => some ⟨a, t, m, some operationalCategory, none, true⟩
  | _ => none

/-- The state the single path is called in: a custom key is pending. -/
def Op.enter (s : State D) : Op D → State D
  | .logEventWithCustomKey _ _ _ _ _ _ (some key) => s.putTemp .pendingCustomDedupKey () key
  | _ => s

/-- The items of a batch. -/
def Op.batch : Op D → List (Address × Symbol × Bytes)
  | .logEvents items => items
  | _ => []

/-- The records a call adds. -/
def Op.adds (H : Host D) (env : Env) (s : State D) (op : Op D) : List Record :=
  match op.submission with
  | some x => if (duplicateOf H env (op.enter s) x).isSome then [] else [x.record env.timestamp]
  | none => op.batch.map (itemRecord env.timestamp)

/-- The action `execute_proposal` performs, if it performs one. -/
def enacted (s : State D) (now proposalId : ℕ) : Option ProposalAction :=
  (s.inst .proposal proposalId).bind fun p =>
    if ¬p.executed ∧ ¬p.expiresAt < now ∧
        ¬p.approvals.length < (s.inst .requiredSignatures ()).getD 1 then
      some p.action
    else none

/-- `RuntimeState.total_events` -/
def runtimeTotal (s : State D) : ℕ := ((s.inst .runtimeState ()).map (·.totalEvents)).getD 0

theorem LogInv.runtimeTotal_eq (h : LogInv H s L) : runtimeTotal s = L.length := by
  obtain ⟨rs, hrs, hn⟩ := h.counted.runtime
  simp [runtimeTotal, hrs, hn]

theorem HasLog.runtimeTotal_eq (h : HasLog H s R) : runtimeTotal s = R.length := by
  obtain ⟨L, hL, rfl⟩ := h
  rw [hL.runtimeTotal_eq, records, List.length_map]

/-- The record an enacted proposal amends. -/
def amendsOfAction (s : State D) : ProposalAction → List (ℕ × Bytes)
  | .rollbackEvent i v => rollbackAmends s i v
  | _ => []

/-- The records a call amends, with the metadata they get. -/
def Op.amends (env : Env) (s : State D) : Op D → List (ℕ × Bytes)
  | .updateEvent _ i m => [(i, m)]
  | .rollbackEvent _ i v => rollbackAmends s i v
  | .processErasureRequest _ id approve _ =>
    if approve then ((s.inst .erasureRequest id).map fun q => (q.eventIndex, [])).toList else []
  | .runRetentionSweep _ first n =>
    let stop := if min (first + n) (2 ^ 32 - 1) < runtimeTotal s then first + n else runtimeTotal s
    sweepAmends s env.timestamp first (stop - first)
  | .executeProposal _ id => ((enacted s env.timestamp id).map (amendsOfAction s)).getD []
  | _ => []

/-! ## The single path -/

@[simp] theorem Op.enter_inst (s : State D) (op : Op D) : (op.enter s).inst = s.inst := by
  unfold Op.enter; split <;> rfl

/-- An entry point over the single path succeeds when the single path does, and
    then writes the nonce or the signature, or removes the custom key. -/
theorem step_single {x : Submission} (hx : op.submission = some x) (hs : Step H env op s r s') :
    ∃ id s₁, (logEventWithHierarchy H x.submitter x.eventType x.metadata x.category x.subEventType
        x.force).run env (op.enter s) = .ok (id, s₁) ∧ r = .id id ∧
      s₁.Frame [DataKey.submitterNonce, DataKey.eventSignature, DataKey.pendingCustomDedupKey] s' ∧
      (op.enter s = s ∧ s'.temporary = s₁.temporary ∨
        s'.temporary .pendingCustomDedupKey () = none) ∧ s'.persistent = s₁.persistent := by
  revert hs
  have key : Post (exec H op) (fun r s' => ∃ id s₁,
      (logEventWithHierarchy H x.submitter x.eventType x.metadata x.category x.subEventType
        x.force).run env (op.enter s) = .ok (id, s₁) ∧ r = .id id ∧
      s₁.Frame [DataKey.submitterNonce, DataKey.eventSignature, DataKey.pendingCustomDedupKey] s' ∧
      (op.enter s = s ∧ s'.temporary = s₁.temporary ∨
        s'.temporary .pendingCustomDedupKey () = none) ∧ s'.persistent = s₁.persistent) env s := by
    cases op <;> simp only [Op.submission, Option.some.injEq, reduceCtorEq] at hx
    case logEvent =>
      subst hx
      simp only [exec, logEvent, post_bind, post_pure]
      exact fun id s₁ hrun => ⟨id, s₁, hrun, rfl, Ledger.frame_refl, Or.inl ⟨rfl, rfl⟩, rfl⟩
    case logEventWithNonce =>
      subst hx
      simp only [exec, logEventWithNonce, post_bind, post_pure, post_load, post_store]
      refine post_reads fun _ _ => post_rejectIf.2 fun _ => post_rejectIf.2 fun _ =>
        post_rejectIf.2 fun _ => ?_
      exact fun id s₁ hrun => ⟨id, s₁, hrun, rfl, Ledger.frame_put (by simp), Or.inl ⟨rfl, rfl⟩, rfl⟩
    case logEventSigned =>
      subst hx
      simp only [exec, logEventSigned, post_bind, post_pure, post_store]
      refine post_rejectIf.2 fun _ => ?_
      exact fun id s₁ hrun => ⟨id, s₁, hrun, rfl, Ledger.frame_put (by simp), Or.inl ⟨rfl, rfl⟩, rfl⟩
    case logEventWithCustomKey a t m c e f k =>
      subst hx
      simp only [exec, logEventWithCustomKey, post_bind, post_pure, post_ifSome, post_storeTemp,
        post_clearTemp]
      refine ⟨fun key hk id s₁ hrun => ?_, fun hk id s₁ hrun => ?_⟩
      · subst hk
        exact ⟨id, s₁, hrun, rfl, Ledger.frame_delTemp (by simp), Or.inr (by simp), rfl⟩
      · subst hk
        exact ⟨id, s₁, hrun, rfl, Ledger.frame_delTemp (by simp), Or.inr (by simp), rfl⟩
    case logOperationalAction =>
      subst hx
      simp only [exec, logOperationalAction, post_bind, post_pure]
      refine post_reads fun _ _ => post_reads fun _ _ => post_rejectIf.2 fun _ => ?_
      exact fun id s₁ hrun => ⟨id, s₁, hrun, rfl, Ledger.frame_refl, Or.inl ⟨rfl, rfl⟩, rfl⟩
  exact fun hs => key.of_run hs

/-- **What a successful call through the single path does.** -/
theorem step_submitted {x : Submission} (hx : op.submission = some x) (hs : Step H env op s r s') :
    ∃ id s₁, Submitted H env x (op.enter s) id s₁ ∧ r = .id id ∧
      s₁.Frame [DataKey.submitterNonce, DataKey.eventSignature, DataKey.pendingCustomDedupKey] s' ∧
      (op.enter s = s ∧ s'.temporary = s₁.temporary ∨
        s'.temporary .pendingCustomDedupKey () = none) := by
  obtain ⟨id, s₁, hrun, hr, hf, ht, -⟩ := step_single hx hs
  exact ⟨id, s₁, post_logEventWithHierarchy.of_run hrun, hr, hf, ht⟩

/-- A call of the single path keeps the entries of the log, and adds those of its records. -/
theorem logInv_single (hinj : Function.Injective H.sha256) {L : List (Entry D)} (h : LogInv H s L)
    {x : Submission} (hx : op.submission = some x) (hs : Step H env op s r s') :
    ∃ M, LogInv H s' (L ++ M) ∧ records M = op.adds H env s := by
  obtain ⟨id, s₁, hsub, -, hf, -⟩ := step_submitted hx hs
  have henter : LogInv H (op.enter s) L := h.of_eq fun _ _ => by rw [Op.enter_inst]
  simp only [Op.adds, hx]
  rcases hsub.outcome with ⟨k, hk, -, -, hf₁⟩ | ⟨hk, i, q, -, hst⟩
  · rw [hk, Option.isSome_some, if_pos rfl]
    refine ⟨[], ?_, rfl⟩
    rw [List.append_nil]
    refine LogInv.of_eq (s := s₁) ?_ (hf.inst_eq (apart_of_eval rfl))
    exact h.of_eq fun f hf => by rw [hf₁.inst_eq (apart_of_eval rfl) f hf, Op.enter_inst]
  · rw [hk, Option.isSome_none]
    refine ⟨[q], (hst.inv hinj henter).2.of_eq (hf.inst_eq (apart_of_eval rfl)), ?_⟩
    simp [records, hst.record]

/-- So does a batch. -/
theorem logInv_batch (hinj : Function.Injective H.sha256) {L : List (Entry D)} (h : LogInv H s L)
    {items : List (Address × Symbol × Bytes)} (hs : Step H env (.logEvents items) s r s') :
    ∃ M, LogInv H s' (L ++ M) ∧ records M = items.map (itemRecord env.timestamp) := by
  have key : Post (exec H (.logEvents items)) (fun _ s' => ∃ M, Batched H env items s L M s') env s := by
    simp only [exec, post_bind, post_pure]
    exact (post_logEvents hinj h)
  obtain ⟨M, hM⟩ := key.of_run hs
  exact ⟨M, hM.inv, hM.records⟩

theorem hasLog_single (hinj : Function.Injective H.sha256) (h : HasLog H s R) {x : Submission}
    (hx : op.submission = some x) (hs : Step H env op s r s') :
    HasLog H s' (R ++ op.adds H env s) := by
  obtain ⟨L, h, rfl⟩ := h
  obtain ⟨M, hM, hrec⟩ := logInv_single hinj h hx hs
  exact ⟨L ++ M, hM, by rw [records_append, hrec]⟩

theorem hasLog_batch (hinj : Function.Injective H.sha256) (h : HasLog H s R)
    {items : List (Address × Symbol × Bytes)} (hs : Step H env (.logEvents items) s r s') :
    HasLog H s' (R ++ items.map (itemRecord env.timestamp)) := by
  obtain ⟨L, h, rfl⟩ := h
  obtain ⟨M, hM, hrec⟩ := logInv_batch hinj h hs
  exact ⟨L ++ M, hM, by rw [records_append, hrec]⟩

/-! ## Governance -/

/-- The counters may be written, with the same count. -/
theorem LogInv.recounted (h : LogInv H s L)
    (hs : ∀ f ∈ [DataKey.eventOrder, .eventData, .eventVersions], s'.inst f = s.inst f)
    (hc : Counted s' L.length) (ho : (s'.inst .owner ()).isSome) : LogInv H s' L where
  holds := h.holds.of_eq (hs _ (by simp)) (hs _ (by simp))
  chain := h.chain
  counted := hc
  versions := by unfold Versions; rw [hs _ (by simp)]; exact h.versions
  owned := ho

/-- A new configuration with the old count. -/
theorem HasLog.put_config (h : HasLog H s R) {c c' : Config} (hc : s.inst .config () = some c)
    (hn : c'.totalEvents = c.totalEvents) : HasLog H (s.put .config () c') R := by
  obtain ⟨L, h, rfl⟩ := h
  obtain ⟨c₀, hc₀, hcn⟩ := h.counted.config
  obtain rfl : c = c₀ := Option.some.inj (hc.symm.trans hc₀)
  refine ⟨L, h.recounted (by simp) ⟨⟨c', by simp, hn.trans hcn⟩, ?_⟩ ?_, rfl⟩
  · simpa using h.counted.runtime
  · simpa using h.owned

/-- A new packed state with the old count. -/
theorem HasLog.put_runtimeState (h : HasLog H s R) {c c' : RuntimeState}
    (hc : s.inst .runtimeState () = some c) (hn : c'.totalEvents = c.totalEvents) :
    HasLog H (s.put .runtimeState () c') R := by
  obtain ⟨L, h, rfl⟩ := h
  obtain ⟨c₀, hc₀, hcn⟩ := h.counted.runtime
  obtain rfl : c = c₀ := Option.some.inj (hc.symm.trans hc₀)
  refine ⟨L, h.recounted (by simp) ⟨?_, ⟨c', by simp, hn.trans hcn⟩⟩ ?_, rfl⟩
  · simpa using h.counted.config
  · simpa using h.owned

theorem HasLog.put_owner (h : HasLog H s R) (a : Address) : HasLog H (s.put .owner () a) R := by
  obtain ⟨L, h, rfl⟩ := h
  refine ⟨L, h.recounted (by simp) ⟨?_, ?_⟩ (by simp), rfl⟩
  · simpa using h.counted.config
  · simpa using h.counted.runtime

/-- A write to another key. -/
theorem HasLog.put (h : HasLog H s R) {f : DataKey} {k : f.Key D} {v : f.Val D} (hf : f ∉ logKeys) :
    HasLog H (s.put f k v) R :=
  h.of_eq fun _ hg => Ledger.put_inst_ne s (ne_of_mem_of_not_mem hg hf)

theorem HasLog.del (h : HasLog H s R) {f : DataKey} {k : f.Key D} (hf : f ∉ logKeys) :
    HasLog H (s.del f k) R :=
  h.of_eq fun _ hg => Ledger.del_inst_ne s (ne_of_mem_of_not_mem hg hf)

theorem HasLog.publish (h : HasLog H s R) {n : Published D} : HasLog H (s.publish n) R :=
  h.of_eq fun _ _ => rfl

theorem HasLog.post_syncRuntimeState (h : HasLog H s R) {f : RuntimeState → RuntimeState}
    (hf : ∀ rs, (f rs).totalEvents = rs.totalEvents) :
    Post (syncRuntimeState f) (fun _ s' => HasLog H s' R) env s := by
  simp only [syncRuntimeState, post_bind, post_load, post_ifSome, post_store]
  exact ⟨fun rs hrs => h.put_runtimeState hrs (hf rs), fun _ => h⟩

/-- The action of a proposal amends the log when it rolls an event back. -/
theorem HasLog.post_performAction (hinj : Function.Injective H.sha256) (h : HasLog H s R)
    {executor : Address} {action : ProposalAction} :
    Post (performAction H executor action)
      (fun _ s' => HasLog H s' (amendAll R (amendsOfAction s action))) env s := by
  cases action with
  | transferOwnership a => exact post_store.2 (h.put_owner a)
  | addOwner a =>
    simp only [performAction, post_bind, post_doIf, post_store]
    exact post_reads fun _ _ => ⟨fun _ => h.put (by simp), fun _ => h⟩
  | removeOwner a =>
    simp only [performAction, post_bind, post_store]
    exact post_reads fun _ _ => h.put (by simp)
  | setRequiredSignatures n => exact post_store.2 (h.put (by simp))
  | setGlobalMaxLogs n =>
    simp only [performAction, post_bind, post_load, post_ifSome, post_store]
    exact ⟨fun c hc => h.put_config hc rfl, fun _ => h⟩
  | setMetadataSchema t b => exact post_store.2 (h.put (by simp))
  | rollbackEvent i v =>
    simp only [performAction, post_bind, post_pure]
    exact post_rollbackEvent hinj h
  | pause => exact post_store.2 (h.put (by simp))
  | unpause => exact post_store.2 (h.put (by simp))

/-! ## Erasure -/

theorem post_getEventByOrder {k : ℕ} {Q : Event D → State D → Prop}
    (hQ : ∀ e, eventAt s k = some e → Q e s) : Post (getEventByOrder k) Q env s := by
  simp only [getEventByOrder, post_bind, post_load, post_unwrapOr]
  refine post_reads fun _ _ id hid e he => hQ e ?_
  rw [eventAt, hid]
  exact he

/-- `is_under_legal_hold` -/
def heldAt (s : State D) (i : ℕ) : Bool := ((s.inst .legalHold i).map (·.active)).getD false

/-- **`process_erasure_request`** empties the metadata of the event it is about, when the request
    is approved and the event is neither operational nor under a legal hold. -/
theorem post_processErasureRequest (hinj : Function.Injective H.sha256) (h : HasLog H s R)
    {caller : Address} {id : ℕ} {approve : Bool} {justification : Bytes} :
    Post (processErasureRequest H caller id approve justification)
      (fun _ s' => ∃ q, s.inst .erasureRequest id = some q ∧
        (approve = true → HasLog H s' (amend R q.eventIndex []) ∧
          (∃ e, eventAt s q.eventIndex = some e ∧ e.category ≠ operationalCategory) ∧
          heldAt s q.eventIndex = false ∧
          Recorded H s q.eventIndex (s'.inst .erasureRecord q.eventIndex) ∧
          ∀ i ≠ q.eventIndex, s'.inst .erasureRecord i = s.inst .erasureRecord i) ∧
        (approve = false → HasLog H s' R ∧ s'.inst .erasureRecord = s.inst .erasureRecord)) env s := by
  simp only [processErasureRequest, isUnderLegalHold, post_bind, post_pure, post_load, post_unwrapOr,
    post_rejectIf, post_doIf, post_getEnv, post_store, post_publish]
  refine post_reads fun _ _ q hq _ => ⟨fun hap => ?_, fun hap => ?_⟩
  · refine post_getEventByOrder fun e he hcat hheld => post_reads fun _ _ _ => ?_
    refine (post_eraseMetadata hinj h he).mono ?_
    rintro _ s₁ ⟨hlog, hrec, hother⟩
    refine ⟨q, hq, fun _ => ?_, ?_⟩
    · refine ⟨(hlog.put (by simp)).publish, ⟨e, he, hcat⟩, by simpa [heldAt] using hheld, ?_, ?_⟩
      · simpa using hrec
      · simpa using hother
    · intro hno
      rw [hap] at hno
      cases hno
  · refine ⟨q, hq, fun hyes => absurd hyes hap, fun _ => ⟨(h.put (by simp)).publish, by simp⟩⟩

/-- **`run_retention_sweep`** empties the metadata of the expired events of its window. -/
theorem post_runRetentionSweep (hinj : Function.Injective H.sha256) (h : HasLog H s R)
    {caller : Address} {first n : ℕ} {l : List (ℕ × Bytes)}
    (hl : l = Op.amends env s (.runRetentionSweep caller first n)) :
    Post (runRetentionSweep H caller first n)
      (fun _ s' => HasLog H s' (amendAll R l) ∧
        ∀ i, (i ∈ l.map Prod.fst → Recorded H s i (s'.inst .erasureRecord i)) ∧
          (i ∉ l.map Prod.fst → s'.inst .erasureRecord i = s.inst .erasureRecord i)) env s := by
  obtain ⟨L, hL, rfl⟩ := id h
  subst hl
  simp only [runRetentionSweep, post_bind, post_pure, post_publish, Op.amends, hL.runtimeTotal_eq]
  refine post_reads fun _ _ => (post_of_run hL.totalEvents_run).2 ?_
  exact (post_sweep hinj h).mono fun _ s₁ h₁ => ⟨h₁.log.publish, fun i => ⟨h₁.recorded i, h₁.kept i⟩⟩

/-! ## Every call -/

/-- What `execute_proposal` does: the enacted action, if any, and the mark on the
    proposal. -/
theorem post_executeProposal {executor : Address} {id : ℕ} {Q : Unit → State D → Prop}
    (hskip : enacted s env.timestamp id = none → Q () s)
    (hact : ∀ p, s.inst .proposal id = some p → enacted s env.timestamp id = some p.action →
      Post (performAction H executor p.action)
        (fun _ s' => ∀ n, Q () ((s'.put .proposal id { p with executed := true }).publish n)) env s) :
    Post (executeProposal H executor id) Q env s := by
  simp only [executeProposal, post_bind, post_load, post_unwrapOr, post_getEnv,
    getRequiredSignatures, post_pure, post_doIf, post_store, post_publish]
  refine post_reads fun _ _ => post_reads fun _ _ => post_rejectIf.2 fun _ p hp => ⟨fun hok => ?_,
    fun hno => hskip ?_⟩
  · have he : enacted s env.timestamp id = some p.action := by
      rw [enacted, hp, Option.bind_some, if_pos (by simpa using hok)]
    exact (hact p hp he).mono fun _ s' h => h _
  · rw [enacted, hp, Option.bind_some, if_neg (by simpa using hno)]

/-- **The contract refines the log of records.** -/
theorem step_hasLog (hinj : Function.Injective H.sha256) (h : HasLog H s R)
    (hs : Step H env op s r s') :
    HasLog H s' (amendAll R (op.amends env s) ++ op.adds H env s) := by
  -- the calls that add nothing
  have of_post : ∀ {R'}, Post (exec H op) (fun _ s' => HasLog H s' R') env s →
      HasLog H s' (R' ++ []) := fun hp => by rw [List.append_nil]; exact hp.of_run hs
  have framed : (∀ f ∈ logKeys, f ∉ op.writes) → HasLog H s' (R ++ []) := fun hf => by
    rw [List.append_nil]; exact h.of_eq (((exec_writes H op).of_run hs).inst_eq hf)
  cases op with
  | logEvent | logEventWithNonce | logEventSigned | logEventWithCustomKey | logOperationalAction =>
    exact hasLog_single hinj h rfl hs
  | logEvents items => exact hasLog_batch hinj h hs
  | updateEvent a i m =>
    refine of_post ?_
    simp only [exec, post_bind, post_pure]
    exact post_updateEvent hinj h
  | rollbackEvent a i v =>
    refine of_post ?_
    simp only [exec, post_bind, post_pure]
    exact post_rollbackEvent hinj h
  | processErasureRequest a id approve j =>
    refine of_post ?_
    simp only [exec, post_bind, post_pure]
    refine (post_processErasureRequest hinj h).mono ?_
    rintro _ s₁ ⟨q, hq, hyes, hno⟩
    cases approve with
    | true =>
      have hl : Op.amends env s (.processErasureRequest a id true j) = [(q.eventIndex, [])] := by
        simp [Op.amends, hq]
      rw [hl]
      exact (hyes rfl).1
    | false => exact (hno rfl).1
  | runRetentionSweep a first n =>
    refine of_post ?_
    simp only [exec, post_bind, post_pure]
    exact (post_runRetentionSweep hinj h rfl).mono fun _ _ h₁ => h₁.1
  | executeProposal a id =>
    refine of_post ?_
    simp only [exec, post_bind, post_pure, Op.amends]
    refine post_executeProposal (fun he => ?_) fun p _ he => ?_
    · rw [he]; exact h
    · rw [he]
      exact (h.post_performAction hinj).mono fun _ s₁ h₁ n => (h₁.put (by simp)).publish
  | setGlobalMaxLogs a n =>
    refine of_post ?_
    simp only [exec, setGlobalMaxLogs, post_bind, post_pure, post_rejectIf, post_load, post_unwrap,
      post_store, post_publish]
    refine post_reads fun _ _ => post_reads fun _ _ _ c hc => ?_
    refine Post.mono (P := fun _ s' => HasLog H s' R) ?_ fun _ s₁ h₁ => h₁.publish
    refine HasLog.post_syncRuntimeState (HasLog.put ?_ (by simp)) fun _ => rfl
    exact h.put_config hc rfl
  | setMetadataMaxSize a n =>
    refine of_post ?_
    simp only [exec, setMetadataMaxSize, post_bind, post_pure, post_store]
    exact post_reads fun _ _ => (h.put (by simp)).post_syncRuntimeState fun _ => rfl
  | setEventEmissionMode a n =>
    refine of_post ?_
    simp only [exec, setEventEmissionMode, post_bind, post_pure, post_store]
    exact post_reads fun _ _ => ((h.put (by simp)).put (by simp)).post_syncRuntimeState fun _ => rfl
  | setLowCostMode a b =>
    refine of_post ?_
    simp only [exec, setLowCostMode, post_bind, post_pure, post_store]
    exact post_reads fun _ _ => (h.put (by simp)).post_syncRuntimeState fun _ => rfl
  | enableAllowlistMode a =>
    refine of_post ?_
    simp only [exec, enableAllowlistMode, post_bind, post_pure, post_store, post_publish]
    refine post_reads fun _ _ => Post.mono (P := fun _ s' => HasLog H s' R) ?_
      fun _ s₁ h₁ => h₁.publish
    exact HasLog.post_syncRuntimeState (h.put (by simp)) fun _ => rfl
  | transferOwnership a b =>
    refine of_post ?_
    simp only [exec, transferOwnership, post_bind, post_pure, post_load, post_unwrap, post_rejectIf,
      post_store, post_publish, post_doIf, post_clear]
    refine post_reads fun _ _ o _ _ _ => post_reads fun owners _ => post_reads fun _ _ => ?_
    have h' : HasLog H ((s.put .owner () b).put .owners () (owners.replace o b)) R :=
      (h.put_owner b).put (by simp)
    refine ⟨fun _ => post_reads fun _ _ => ⟨fun _ => ?_, fun _ => ?_⟩, fun _ => ?_⟩
    · exact ((h'.put (by simp)).del (by simp)).publish
    · exact (h'.put (by simp)).publish
    · exact h'.publish
  | _ => exact framed (apart_of_eval rfl)

/-! ## Runs -/

/-- What `initialize` leaves. -/
structure Initialized (s : State D) (globalMaxLogs maxMetadataBytes : ℕ) : Prop where
  config : s.inst .config () = some ⟨globalMaxLogs, 0⟩
  runtime : s.inst .runtimeState () =
    some ⟨globalMaxLogs, 0, false, false, false, 1, maxMetadataBytes⟩
  paused : s.inst .paused () = some false
  metadata : s.inst .globalMetadataMaxSize () = some maxMetadataBytes
  owned : (s.inst .owner ()).isSome
  frame : Ledger.empty.Frame initWrites s

theorem initialized_of_init (h : Init s) : ∃ g m, Initialized s g m := by
  obtain ⟨env, owners, g, m, hrun⟩ := h
  refine ⟨g, m, ?_⟩
  revert hrun
  have key : Post (initializeLedger (D := D) owners g m) (fun _ s => Initialized s g m) env
      Ledger.empty := by
    refine Post.with_frame (L := layout D) (W := initWrites) ?_
    simp only [initializeLedger, post_bind, post_load, post_rejectIf, post_unwrap, post_requireAuth,
      post_store]
    intro _ _ primary _ _
    refine Post.with_frame (L := layout D) (W := [.role]) fun _ s' _ hf hframe => ?_
    constructor
    · simp [hf.inst]
    · simp [hf.inst]
    · simp [hf.inst]
    · simp [hf.inst]
    · simp [hf.inst]
    · exact hframe
  exact fun hrun => key.of_run hrun

/-- What `initialize` does not write is absent. -/
theorem Initialized.absent {g m : ℕ} (h : Initialized s g m) {f : DataKey} (hf : f ∉ initWrites)
    (k : f.Key D) : s.inst f k = none ∧ s.temporary f k = none := by
  rw [h.frame.inst hf, h.frame.temporary hf]; exact ⟨rfl, rfl⟩

theorem Initialized.hasLog {g m : ℕ} (h : Initialized s g m) : HasLog H s [] := by
  refine ⟨[], ⟨⟨fun i => ?_, by simp⟩, ⟨by simp, trivial, by simp⟩, ⟨⟨_, h.config, rfl⟩,
    ⟨_, h.runtime, rfl⟩⟩, fun i vs hvs => ?_, h.owned⟩, rfl⟩
  · exact (h.absent (f := .eventOrder) (by simp) i).1
  · rw [(h.absent (f := .eventVersions) (by simp) i).1] at hvs; cases hvs

/-- The records a step adds. -/
def Action.adds (H : Host D) (s : State D) : Action D → List Record
  | .call env op => op.adds H env s
  | _ => []

/-- The log after an action. -/
def Action.logAfter (H : Host D) (s : State D) (R : List Record) : Action D → List Record
  | .call env op => amendAll R (op.amends env s) ++ op.adds H env s
  | _ => R

theorem next_hasLog (hinj : Function.Injective H.sha256) {a : Action D} (h : HasLog H s R)
    (hn : Next H s a s') : HasLog H s' (a.logAfter H s R) := by
  cases a with
  | call env op =>
    obtain ⟨r, hs⟩ := hn
    exact step_hasLog hinj h hs
  | expireTemporary f k => rw [Next] at hn; exact hn ▸ h.of_eq fun _ _ => rfl
  | expirePersistent f k => rw [Next] at hn; exact hn ▸ h.of_eq fun _ _ => rfl

/-- **Every reachable state has a log.** -/
theorem hasLog_of_history (hinj : Function.Injective H.sha256) {tr : List (State D × Action D)}
    (h : History H tr s) : ∃ R, HasLog H s R := by
  obtain ⟨s₀, h₀, hrun⟩ := h
  obtain ⟨g, m, hinit⟩ := initialized_of_init h₀
  refine hrun.invariant (C := fun _ _ => True) (I := fun s => ∃ R, HasLog H s R) ⟨[], hinit.hasLog⟩
    ?_ fun _ _ => trivial
  rintro s a s' - hn ⟨R, hR⟩
  exact ⟨_, next_hasLog hinj hR hn⟩

end AuditLedger
