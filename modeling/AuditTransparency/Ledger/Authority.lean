/-
  AuditLedger — what a call needs, and what strangers can do.

  Every entry point that writes asks its caller for a power: to submit events, to be an owner or
  the primary owner, to pass the check of the owner operations, or to record operational events.
  `Op.needs` is the table, and `step_held` says that the contract keeps to it.

  * `step_held`: a call succeeds only for callers that hold what it needs in the state before it;
  * `run_changed`: a changed setting was written by a call of somebody who held a power;
  * `history_strangers`: whoever holds no power can only log and ask.  The events there are, their
    versions, and all settings are after any such run what they were before it.
-/
import AuditTransparency.Ledger.Returning
import AuditTransparency.Ledger.Trail

namespace AuditLedger

open Soroban
open Soroban.Call hiding hasPers publish

variable {D : Type} [DecidableEq D] {H : Host D} {env : Env} {s s' : State D} {op : Op D} {r : Ret D}
  {L : List (Entry D)} {a : Address} {act : Action D} {tr tr₁ tr₂ : List (State D × Action D)}

/-! ## Powers -/

/-- What an entry point can ask of its caller. -/
inductive Power where
  /-- to submit events -/
  | submit
  /-- to be one of the owners -/
  | own
  /-- to be the primary owner -/
  | lead
  /-- to pass the check of the owner operations -/
  | administer
  /-- to record operational events -/
  | record
  deriving DecidableEq

/-- `a` holds the power in the state `s`. -/
def Power.Held (s : State D) (a : Address) : Power → Prop
  | submit => (rosterOf s).rbac = true → Role.submitter.rank ≤ (((rosterOf s).role a).getD .viewer).rank
  | own => (rosterOf s).IsOwner a
  | lead => (rosterOf s).owner = some a
  | administer => Passes s a
  | record => opsRecorder s a = true

/-- What an entry point needs, and of whom. -/
def Op.needs : Op D → List (Address × Power)
  | .logEvent a .. | .logEventWithNonce a .. | .logEventSigned a .. | .logEventWithCustomKey a .. =>
    [(a, .submit)]
  | .logEvents items => items.map fun item => (item.1, .submit)
  | .logOperationalAction a .. => [(a, .record), (a, .submit)]
  | .getEvent _ | .requestErasure .. => []
  | .submitProposal a .. | .approveProposal a _ | .executeProposal a _ => [(a, .own)]
  | .registerWebhook a .. | .unregisterWebhook a .. => [(a, .lead)]
  | .setSubmitterNonceConfig a .. | .resetSubmitterNonce a _ | .setDefaultNonceConfig a ..
  | .updateEvent a .. | .rollbackEvent a .. | .archiveEvents a _ | .purgeArchivedEvents a ..
  | .createSnapshot a _ | .tagEventVersion a .. | .cleanupStaleHashes a ..
  | .cleanupStaleDedupEntries a .. | .compactStorage a _ | .cleanupExpiredEvents a ..
  | .setGlobalMaxLogs a _ | .setEventMaxLogs a .. | .removeEventCap a _ | .setMetadataMaxSize a _
  | .setEventMetadataMaxSize a .. | .setMetadataSchema a .. | .setEventTtl a _
  | .setCategoryMaxLen a _ | .setSubmitterRateLimit a .. | .setEventEmissionMode a _
  | .setLowCostMode a _ | .pause a | .unpause a | .blockSubmitter a _ | .unblockSubmitter a _
  | .enableAllowlistMode a | .disableAllowlistMode a | .allowSubmitter a _
  | .removeSubmitterFromAllowlist a _ | .setDedupPolicy a _ | .setDedupPolicyForType a ..
  | .setArchiveConfig a _ | .transferOwnership a _ | .addOwner a _ | .removeOwner a _
  | .setRequiredSignatures a _ | .setRole a .. | .enableRbac a _ | .registerSchema a ..
  | .migrateEventMetadata a .. | .setRetentionPolicy a .. | .setDefaultRetentionDays a _
  | .placeLegalHold a .. | .releaseLegalHold a .. | .grantComplianceException a ..
  | .revokeComplianceException a _ | .processErasureRequest a .. | .runRetentionSweep a ..
  | .addOpsRecorder a _ | .removeOpsRecorder a _ => [(a, .administer)]

/-! ## The checks -/

section
variable {α β : Type} {P : Prop}

/-- What a call has established, it has established for what follows it. -/
theorem post_guard {m : Fn D β} {f : β → Fn D α} (h : Post m (fun _ _ => P) env s) :
    Post (m >>= f) (fun _ _ => P) env s :=
  post_bind.2 (h.mono fun _ _ hp _ _ _ => hp)

/-- A call that reads leaves the rest to start from the same state. -/
theorem post_behind {m : Fn D β} [Reads m] {f : β → Fn D α} (h : ∀ b, Post (f b) (fun _ _ => P) env s) :
    Post (m >>= f) (fun _ _ => P) env s :=
  post_bind_reads fun b _ => h b

/-- `a` has authorised the call and holds the power. -/
def Granted (env : Env) (s : State D) (a : Address) (p : Power) : Prop := env.auth a = true ∧ p.Held s a

theorem post_requireAuth_and {f : Unit → Fn D α} {Q : Prop} (h : Post (f ()) (fun _ _ => Q) env s) :
    Post (requireAuth a >>= f) (fun _ _ => env.auth a = true ∧ Q) env s :=
  post_bind.2 (post_requireAuth.2 fun ha => h.mono fun _ _ hq => ⟨ha, hq⟩)

theorem post_requireRoleMin (rank : Role) : Post (requireRoleMin a rank)
    (fun _ _ => (rosterOf s).rbac = true → rank.rank ≤ (((rosterOf s).role a).getD .viewer).rank) env s := by
  simp only [requireRoleMin, rbacEnabled, getRoleOf, post_bind, post_load, post_pure, post_doIf,
    post_rejectIf, not_lt]
  exact ⟨fun _ hr _ => hr, fun hoff hon => absurd hon hoff⟩

theorem post_requireOwnerOrMultisig :
    Post (requireOwnerOrMultisig a) (fun _ _ => Power.administer.Held s a) env s := by
  intro x s' hrun
  rw [requireOwnerOrMultisig_run] at hrun
  refine passes_iff.2 ?_
  split_ifs at hrun ⊢ with _ hcan hcan
  · exact hcan
  · exact hcan

theorem post_requireCaller : Post (requireCaller a) (fun _ _ => Granted env s a .administer) env s :=
  post_behind fun _ => post_requireAuth_and post_requireOwnerOrMultisig

theorem post_requireGovernance :
    Post (requireGovernance a) (fun _ _ => Granted env s a .administer) env s :=
  post_behind fun _ => post_requireAuth_and <| post_behind fun _ => post_behind fun _ =>
    post_requireOwnerOrMultisig

theorem post_requireAdmin : Post (requireAdmin a) (fun _ _ => Granted env s a .administer) env s := by
  refine post_behind fun _ => post_requireAuth_and <| post_bind_reads fun enabled henabled => ?_
  obtain rfl : (rosterOf s).rbac = enabled := by cases henabled; rfl
  refine post_ite.2 ⟨fun hon => (post_requireRoleMin .admin).mono fun _ _ hrank => passes_iff.2 ?_,
    fun _ => post_requireOwnerOrMultisig⟩
  rw [if_pos hon]
  have := hrank hon
  rcases hrole : (rosterOf s).role a with _ | _ | _ | _ | _ <;> simp_all [Role.rank]

/-- The checks the proposals start with. -/
theorem post_requireOwn {e : ContractError} {f : Bool → Unit → Fn D α} :
    Post (requireAuth a >>= fun _ => isAddrOwner a >>= fun isOwner => rejectIf (¬isOwner) e >>= f isOwner)
      (fun _ _ => Granted env s a .own) env s := by
  refine post_requireAuth_and (post_bind.2 ((post_of_run isAddrOwner_run).2 (post_guard ?_)))
  exact post_rejectIf.2 fun hown => by simpa [Power.Held] using hown

theorem post_requireLead {f : Unit → Fn D α} :
    Post (requireAuth a >>= fun _ => requireOwner a >>= f) (fun _ _ => Granted env s a .lead) env s := by
  refine post_requireAuth_and (post_guard ?_)
  simp only [requireOwner, post_bind, post_load, post_unwrap, post_rejectIf, not_not]
  rintro b hb rfl
  exact hb

theorem post_logEventWithHierarchy_granted {x : Submission} :
    Post (logEventWithHierarchy H x.submitter x.eventType x.metadata x.category x.subEventType x.force)
      (fun _ _ => Granted env s x.submitter .submit) env s :=
  post_behind fun _ => post_requireAuth_and <| post_guard (post_requireRoleMin .submitter)

/-- **The checking loop of a batch** asks every submitter once. -/
theorem post_checkBatch_granted {items : List (Address × Symbol × Bytes)} :
    Post (items.foldlM checkBatchItem ⟨[], [], []⟩)
      (fun _ _ => ∀ item ∈ items, Granted env s item.1 .submit) env s := by
  let I (done : List (Address × Symbol × Bytes)) (acc : BatchCounts) (t : State D) : Prop :=
    t = s ∧ (∀ item ∈ done, item.1 ∈ acc.authorizedSubmitters) ∧
      ∀ b ∈ acc.authorizedSubmitters, Granted env s b .submit
  refine (post_foldlM I items _ s [] ⟨rfl, by simp, by simp⟩ ?_).mono
    fun acc _ h item hitem => h.2.2 _ (h.2.1 item hitem)
  rintro done item rest acc t - ⟨rfl, hdone, hgranted⟩
  have hfirst : Post (doIf (item.1 ∉ acc.authorizedSubmitters) do
      requireAuth item.1
      requireRoleMin item.1 .submitter : Fn D Unit)
      (fun _ t' => t' = t ∧ (item.1 ∉ acc.authorizedSubmitters → Granted env t item.1 .submit)) env t :=
    (Reads.eq env t).and <| post_doIf.2 ⟨fun _ => (post_requireAuth_and
      (post_requireRoleMin .submitter)).mono fun _ _ h _ => h, fun hin hout => absurd hout hin⟩
  unfold checkBatchItem
  refine post_bind.2 (hfirst.mono ?_)
  rintro _ _ ⟨rfl, hnew⟩
  refine post_bind_reads fun _ _ => post_bind_reads fun _ _ => post_bind_reads fun _ _ =>
    post_pure.2 ⟨rfl, ?_⟩
  by_cases hin : item.1 ∈ acc.authorizedSubmitters
  · simp only [if_pos hin]
    refine ⟨fun b hb => ?_, hgranted⟩
    rcases List.mem_append.1 hb with hb | hb
    · exact hdone b hb
    · rw [List.mem_singleton.1 hb]
      exact hin
  · simp only [if_neg hin]
    refine ⟨fun b hb => ?_, fun b hb => ?_⟩
    · rcases List.mem_append.1 hb with hb | hb
      · exact List.mem_append_left _ (hdone b hb)
      · rw [List.mem_singleton.1 hb]
        simp
    · rcases List.mem_append.1 hb with hb | hb
      · exact hgranted b hb
      · rw [List.mem_singleton.1 hb]
        exact hnew hin

end

/-! ## The table -/

theorem granted_of_submission {x : Submission} (hx : op.submission = some x) (hs : Step H env op s r s') :
    Granted env s x.submitter .submit := by
  obtain ⟨id, s₁, hrun, -⟩ := step_single hx hs
  have hroster : rosterOf (op.enter s) = rosterOf s := rosterOf_congr fun _ _ => by rw [Op.enter_inst]
  have hgranted := post_logEventWithHierarchy_granted.of_run hrun
  simpa only [Granted, Power.Held, hroster] using hgranted

/-- **A call succeeds only for callers that hold what it needs**, in the state before it. -/
theorem step_held (hs : Step H env op s r s') : ∀ q ∈ op.needs, Granted env s q.1 q.2 := by
  have of_post : ∀ {P : Prop}, Post (exec H op) (fun _ _ => P) env s → P := fun hp => hp.of_run hs
  have one : ∀ {q : Address × Power}, Granted env s q.1 q.2 →
      ∀ q' ∈ [q], Granted env s q'.1 q'.2 := fun h => List.forall_mem_singleton.2 h
  cases op with
  | logEvent | logEventWithNonce | logEventSigned | logEventWithCustomKey =>
    exact one (granted_of_submission rfl hs)
  | logOperationalAction b t m =>
    have hsubmit : Granted env s b .submit := granted_of_submission rfl hs
    have hrecord : Power.record.Held s b := by
      refine of_post (post_guard (post_behind fun _ => post_bind.2 ?_))
      refine (post_of_run isAddrOpsRecorder_run).2 (post_guard (post_rejectIf.2 fun hallowed => ?_))
      simpa [Power.Held] using hallowed
    refine List.forall_mem_cons.2 ⟨⟨hsubmit.1, hrecord⟩, one hsubmit⟩
  | logEvents items =>
    have hall : ∀ item ∈ items, Granted env s item.1 .submit := of_post <| post_guard <|
      post_behind fun _ => post_behind fun _ => post_behind fun _ => post_behind fun _ =>
      post_guard post_checkBatch_granted
    intro q hq
    obtain ⟨item, hitem, rfl⟩ := List.mem_map.1 hq
    exact hall item hitem
  | getEvent | requestErasure => exact fun q hq => absurd hq (by simp [Op.needs])
  | submitProposal b => exact one (of_post (post_guard post_requireOwn))
  | approveProposal b => exact one (of_post (post_guard post_requireOwn))
  | executeProposal b => exact one (of_post (post_guard post_requireOwn))
  | registerWebhook b | unregisterWebhook b =>
    exact one (of_post (post_guard (post_behind fun _ => post_requireLead)))
  | setGlobalMaxLogs b | setEventMaxLogs b | removeEventCap b | setMetadataMaxSize b
  | setEventMetadataMaxSize b | setMetadataSchema b | setEventTtl b | transferOwnership b
  | registerSchema b | migrateEventMetadata b =>
    exact one (of_post (post_guard (post_guard post_requireGovernance)))
  | setRole b | enableRbac b => exact one (of_post (post_guard (post_guard post_requireAdmin)))
  | addOwner b | removeOwner b | setRequiredSignatures b | updateEvent b | rollbackEvent b
  | archiveEvents b | purgeArchivedEvents b =>
    exact one (of_post (post_guard (post_requireAuth_and (post_guard post_requireOwnerOrMultisig))))
  | _ => exact one (of_post (post_guard (post_guard post_requireCaller)))

/-! ## Strangers -/

/-- `a` is no owner, no admin and no recorder. -/
structure Stranger (s : State D) (a : Address) : Prop where
  powerless : (rosterOf s).Powerless a
  notRecorder : opsRecorder s a = false

/-- A stranger can only submit. -/
theorem Stranger.eq_submit (h : Stranger s a) {p : Power} (hp : p.Held s a) : p = .submit := by
  obtain ⟨hnot, hadmin⟩ := Roster.powerless_iff.1 h.powerless
  cases p with
  | submit => rfl
  | own => exact absurd hp hnot
  | lead => exact absurd (Or.inr hp) hnot
  | administer =>
    have hpass := passes_iff.1 hp
    split_ifs at hpass
    · exact absurd hpass hadmin
    · exact absurd hpass hnot
  | record =>
    have hrecord : opsRecorder s a = true := hp
    rw [h.notRecorder] at hrecord
    cases hrecord

/-- The keys that say who is a stranger. -/
abbrev strangerKeys : List DataKey := .opsAuditRecorders :: rosterKeys

theorem Stranger.congr (h : Stranger s a) (hs : ∀ f ∈ strangerKeys, s'.inst f = s.inst f) : Stranger s' a where
  powerless := by
    rw [rosterOf_congr fun f hf => hs f (List.mem_cons_of_mem _ hf)]
    exact h.powerless
  notRecorder := by
    have hrec := h.notRecorder
    rwa [opsRecorder, ← hs .owners (by simp), ← hs .owner (by simp), ← hs .opsAuditRecorders (by simp)] at hrec

/-- The entry point asks for no more than the power to submit. -/
def Op.isOpen (op : Op D) : Prop := ∀ q ∈ op.needs, q.2 = .submit

/-- Who holds a power in `s` makes no use of it in the step. -/
def Action.byStrangers (s : State D) : Action D → Prop
  | .call _ op => ∀ q ∈ op.needs, q.2 = .submit ∨ Stranger s q.1
  | _ => True

/-- What the open entry points can write. -/
abbrev openWrites : List DataKey :=
  [.submitterNonce, .eventSignature, .ttlCleanupStats, .erasureRequest, .erasureRequestCount] ++ singleWrites

omit [DecidableEq D] in
theorem Op.isOpen.writes (h : op.isOpen) : ∀ f ∈ op.writes, f ∈ openWrites := by
  cases op with
  | logEvent | logEvents | logEventWithNonce | logEventSigned | logEventWithCustomKey | getEvent
  | requestErasure =>
    intro f hf
    simp only [Op.writes, List.mem_cons, List.mem_append] at hf ⊢
    grind
  | _ => exact absurd h (by simp [Op.isOpen, Op.needs])

/-- **What a run of strangers leaves** of the state `s`, when it added the records `added`. -/
structure Extended (s : State D) (added : List Record) (s' : State D) : Prop where
  order : ∀ i id, s.inst .eventOrder i = some id → s'.inst .eventOrder i = some id
  events : ∀ i e, eventAt s i = some e → eventAt s' i = some e
  total : runtimeTotal s' = runtimeTotal s + added.length
  added : ∀ j q, added[j]? = some q → (eventAt s' (runtimeTotal s + j)).map Event.record = some q
  runtime : s'.inst .runtimeState () =
    (s.inst .runtimeState ()).map fun rs => { rs with totalEvents := runtimeTotal s' }
  kept : ∀ f ∉ openWrites, s'.inst f = s.inst f

/-- The packed state, but for the total. -/
def Recounted (s s' : State D) : Prop :=
  ∃ n, s'.inst .runtimeState () = (s.inst .runtimeState ()).map fun rs => { rs with totalEvents := n }

theorem Recounted.of_eq (hs : s'.inst .runtimeState = s.inst .runtimeState) : Recounted s s' := by
  refine ⟨runtimeTotal s, ?_⟩
  rw [hs, runtimeTotal]
  cases s.inst .runtimeState () <;> rfl

theorem Recounted.trans {t : State D} (h : Recounted s s') (h' : Recounted s' t) : Recounted s t := by
  obtain ⟨n, hn⟩ := h
  obtain ⟨m, hm⟩ := h'
  refine ⟨m, ?_⟩
  rw [hm, hn, Option.map_map]
  rfl

/-- An open call appends to the log. -/
theorem Op.isOpen.appends (hopen : op.isOpen) (hinj : Function.Injective H.sha256) (h : LogInv H s L)
    (hs : Step H env op s r s') :
    ∃ M, LogInv H s' (L ++ M) ∧ records M = op.adds H env s ∧ Recounted s s' := by
  have framed : op.submission = none → op.batch = [] →
      (∀ f ∈ .runtimeState :: logKeys, f ∉ op.writes) →
      ∃ M, LogInv H s' (L ++ M) ∧ records M = op.adds H env s ∧ Recounted s s' := by
    intro hnone hnil hf
    have hkeep := ((exec_writes H op).of_run hs).inst_eq hf
    refine ⟨[], ?_, ?_, Recounted.of_eq (hkeep _ (by simp))⟩
    · rw [List.append_nil]
      exact h.of_eq fun f hf => hkeep f (List.mem_cons_of_mem _ hf)
    · simp [Op.adds, hnone, hnil, records]
  have single : ∀ {x : Submission}, op.submission = some x →
      ∃ M, LogInv H s' (L ++ M) ∧ records M = op.adds H env s ∧ Recounted s s' := by
    intro x hx
    obtain ⟨M, hM, hrec⟩ := logInv_single hinj h hx hs
    refine ⟨M, hM, hrec, ?_⟩
    obtain ⟨id, s₁, hsub, -, hf, -⟩ := step_submitted hx hs
    have hlast : s'.inst .runtimeState = s₁.inst .runtimeState := hf.inst (notMem_of_eval rfl)
    rcases hsub.outcome with ⟨k, -, -, -, hf₁⟩ | ⟨-, i, q, -, hst⟩
    · refine Recounted.of_eq ?_
      rw [hlast, hf₁.inst (notMem_of_eval rfl), Op.enter_inst]
    · refine ⟨i + 1, ?_⟩
      rw [hlast, hst.runtime, Op.enter_inst]
  cases op with
  | logEvent | logEventWithNonce | logEventSigned | logEventWithCustomKey => exact single rfl
  | logEvents items =>
    have key : Post (exec H (.logEvents items)) (fun _ s' => ∃ M, Batched H env items s L M s') env s := by
      simp only [exec, post_bind, post_pure]
      exact post_logEvents hinj h
    obtain ⟨M, hM⟩ := key.of_run hs
    obtain ⟨rs, hrs, -, -, hrs'⟩ := hM.runtime
    refine ⟨M, hM.inv, hM.records, L.length + items.length, ?_⟩
    rw [hrs', hrs, Option.map_some]
  | getEvent | requestErasure => exact framed rfl rfl (apart_of_eval rfl)
  | _ => exact absurd hopen (by simp [Op.isOpen, Op.needs])

/-- A step without the use of a power. -/
theorem next_strangers (hinj : Function.Injective H.sha256) (h : LogInv H s L) (hn : Next H s act s')
    (hact : act.byStrangers s) :
    ∃ M, LogInv H s' (L ++ M) ∧ records M = act.adds H s ∧ Recounted s s' ∧
      ∀ f ∉ openWrites, s'.inst f = s.inst f := by
  cases act with
  | call env op =>
    obtain ⟨r, hs⟩ := hn
    have hopen : op.isOpen := fun q hq =>
      (hact q hq).elim id fun hstr => hstr.eq_submit (step_held hs q hq).2
    obtain ⟨M, hM, hrec, hruntime⟩ := hopen.appends hinj h hs
    exact ⟨M, hM, hrec, hruntime, fun f hf =>
      ((exec_writes H op).of_run hs).inst fun hw => hf (hopen.writes f hw)⟩
  | expireTemporary f k | expirePersistent f k =>
    rw [Next] at hn
    subst hn
    refine ⟨[], ?_, rfl, Recounted.of_eq rfl, fun _ _ => rfl⟩
    rw [List.append_nil]
    exact h.of_eq fun _ _ => rfl

/-- What the entries of an extended log say. -/
theorem LogInv.extended {M : List (Entry D)} (h : LogInv H s L) (h' : LogInv H s' (L ++ M))
    (hruntime : Recounted s s') (hkept : ∀ f ∉ openWrites, s'.inst f = s.inst f) :
    Extended s (records M) s' where
  order i id hi := by
    rw [h.holds.order] at hi
    rw [h'.holds.order, List.getElem?_append_left]
    · exact hi
    · obtain ⟨p, hp, -⟩ := Option.map_eq_some_iff.1 hi
      exact (List.getElem?_eq_some_iff.1 hp).1
  events i e he := by
    rw [h.holds.eventAt_eq] at he
    rw [h'.holds.eventAt_eq, List.getElem?_append_left]
    · exact he
    · obtain ⟨p, hp, -⟩ := Option.map_eq_some_iff.1 he
      exact (List.getElem?_eq_some_iff.1 hp).1
  total := by
    rw [h.runtimeTotal_eq, h'.runtimeTotal_eq, List.length_append, records, List.length_map]
  added j q hq := by
    rw [h.runtimeTotal_eq, h'.holds.eventAt_eq, List.getElem?_append_right (Nat.le_add_right _ _),
      Nat.add_sub_cancel_left, Option.map_map]
    rwa [records, List.getElem?_map] at hq
  runtime := by
    obtain ⟨n, hn⟩ := hruntime
    rw [hn, runtimeTotal, hn]
    cases s.inst .runtimeState () <;> rfl
  kept := hkept

/-- **Strangers can only log and ask.**  From a reachable state, and as long as nobody makes use of a
    power held in it, only the open entry points succeed.  The events there were are in place, with their
    ids, hashes and metadata, what was logged comes after them, and no other entry has changed. -/
theorem history_strangers (hinj : Function.Injective H.sha256) (h : History H tr₁ s)
    (hrun : Run (Next H) s tr₂ s') (hstr : ∀ p ∈ tr₂, p.2.byStrangers s) :
    (∀ p ∈ tr₂, ∀ env op, p.2 = .call env op → op.isOpen) ∧
      Extended s (tr₂.flatMap fun p => p.2.adds H p.1) s' := by
  obtain ⟨R, L, hL, -⟩ := hasLog_of_history hinj h
  -- the strangers of `s` are strangers in every state of the run
  have key : (∀ p ∈ tr₂, p.2.byStrangers p.1) ∧ ∃ M, LogInv H s' (L ++ M) ∧
      records M = tr₂.flatMap (fun p => p.2.adds H p.1) ∧ Recounted s s' ∧
      ∀ f ∉ openWrites, s'.inst f = s.inst f := by
    clear h
    induction hrun with
    | init => exact ⟨by simp, [], by simpa using hL, rfl, Recounted.of_eq rfl, fun _ _ => rfl⟩
    | @snoc tr t t' act _ hn ih =>
      rw [List.forall_mem_append] at hstr
      obtain ⟨hbefore, M, hM, hrec, hruntime, hkept⟩ := ih hstr.1
      have hact : act.byStrangers t := by
        have hlast : act.byStrangers s := hstr.2 (t, act) (by simp)
        cases act with
        | call env op =>
          exact fun q hq => (hlast q hq).imp_right fun hs => hs.congr fun f hf =>
            hkept f (apart_of_eval (W := openWrites) rfl f hf)
        | expireTemporary | expirePersistent => exact trivial
      obtain ⟨N, hN, hadds, hruntime', hkept'⟩ := next_strangers hinj hM hn hact
      refine ⟨?_, M ++ N, ?_, ?_, hruntime.trans hruntime', fun f hf => (hkept' f hf).trans (hkept f hf)⟩
      · rw [List.forall_mem_append]
        exact ⟨hbefore, by simpa using hact⟩
      · rwa [← List.append_assoc]
      · rw [records_append, hrec, hadds, List.flatMap_append]
        simp
  obtain ⟨hall, M, hM, hrec, hruntime, hkept⟩ := key
  refine ⟨?_, hrec ▸ hL.extended hM hruntime hkept⟩
  rintro ⟨t, act⟩ hp env op rfl
  obtain ⟨before, after, rfl⟩ := List.append_of_mem hp
  obtain ⟨t', -, ⟨r, hs⟩, -⟩ := hrun.split
  exact fun q hq => ((hall _ hp) q hq).elim id fun hstranger => hstranger.eq_submit (step_held hs q hq).2

/-- **Every change of a setting has its author.**  When an entry that the open entry points do not write
    has changed over a run, one of the calls wrote it for a caller that held more than the power to
    submit, and held it in the state it was made in. -/
theorem run_changed {f : DataKey} (hrun : Run (Next H) s tr s') (hf : f ∉ openWrites)
    (hne : s'.inst f ≠ s.inst f) :
    ∃ p ∈ tr, ∃ env op, p.2 = .call env op ∧ f ∈ op.writes ∧
      ∃ q ∈ op.needs, q.2 ≠ .submit ∧ Granted env p.1 q.1 q.2 := by
  induction hrun with
  | init => exact absurd rfl hne
  | @snoc tr t t' act _ hn ih =>
    by_cases ht : t.inst f = s.inst f
    · rw [← ht] at hne
      cases act with
      | call env op =>
        obtain ⟨r, hs⟩ := hn
        have hw : f ∈ op.writes := by
          by_contra hw
          exact hne (((exec_writes H op).of_run hs).inst hw)
        have hclosed : ¬op.isOpen := fun hopen => hf (hopen.writes f hw)
        obtain ⟨q, hq, hpower⟩ : ∃ q ∈ op.needs, q.2 ≠ .submit := by
          simpa only [Op.isOpen, not_forall, exists_prop] using hclosed
        exact ⟨(t, .call env op), by simp, env, op, rfl, hw, q, hq, hpower, step_held hs q hq⟩
      | expireTemporary | expirePersistent =>
        rw [Next] at hn
        subst hn
        exact absurd rfl hne
    · obtain ⟨p, hp, hauthor⟩ := ih ht
      exact ⟨p, List.mem_append_left _ hp, hauthor⟩

/-- A stranger logs, and the owner lowers a limit. -/
def lowerScript : List (Env × Op Bytes) :=
  [(openEnv 11, .logEvent (account 66) "a" [1] none none false),
    (openEnv 12, .setEventMaxLogs (account 65) "a" 7)]

theorem run_changed_lowerScript :
    ∃ p ∈ traceOf plainHost (deployed (openEnv 10) (account 65) 100 50) lowerScript,
      ∃ env op, p.2 = .call env op ∧ .eventMaxLogs ∈ op.writes ∧
      ∃ q ∈ op.needs, q.2 ≠ .submit ∧ Granted env p.1 q.1 q.2 := by
  let s₀ : State Bytes := deployed (openEnv 10) (account 65) 100 50
  obtain ⟨s, hs⟩ : ∃ s, play plainHost s₀ lowerScript = some s :=
    Option.isSome_iff_exists.1 (by decide +kernel)
  have hset : (play plainHost s₀ lowerScript).map (fun s => s.inst .eventMaxLogs "a") = some (some 7) := by
    decide +kernel
  rw [hs] at hset
  refine run_changed (f := .eventMaxLogs) (run_of_play hs) (by decide) fun hsame => ?_
  have hbefore : s.inst .eventMaxLogs "a" = none := congrFun hsame "a"
  exact absurd (hbefore.symm.trans (Option.some.inj hset)) (by decide)

/-- The owner logs. -/
def ownCall : Env × Op Bytes := (openEnv 11, .logEvent (account 65) "a" [1] none none false)

/-- Two strangers log, and one asks for an erasure. -/
def strangersScript : List (Env × Op Bytes) :=
  [(openEnv 12, .logEvent (account 66) "a" [2] none none false),
    (openEnv 13, .logEvents [(account 67, "a", [3]), (account 66, "b", [4])]),
    (openEnv 14, .requestErasure (account 66) 0 "gdpr")]

theorem history_strangers_strangersScript : ∃ s s' : State Bytes, Reachable plainHost s ∧
    Stranger s (account 66) ∧ runtimeTotal s = 1 ∧ ∃ added, added.length = 3 ∧ Extended s added s' := by
  let s₀ : State Bytes := deployed (openEnv 10) (account 65) 100 50
  obtain ⟨s, hs⟩ : ∃ s, play plainHost s₀ [ownCall] = some s :=
    Option.isSome_iff_exists.1 (by decide +kernel)
  have hhist : History plainHost (traceOf plainHost s₀ [ownCall]) s := history_of_play (init_deployed rfl _ _) hs
  have htotal : (play plainHost s₀ [ownCall]).map runtimeTotal = some 1 := by decide +kernel
  have hstranger : Stranger s (account 66) := by
    refine Stranger.congr (s := s₀) ⟨Roster.powerless_iff.2 ⟨?_, ?_⟩, ?_⟩ fun f hf => ?_
    · decide +kernel
    · decide +kernel
    · decide +kernel
    · refine inst_of_play hs (List.forall_mem_singleton.2 ?_)
      exact apart_of_eval (W := ownCall.2.writes) rfl f hf
  have hplay : ((play plainHost s₀ [ownCall]).bind fun s => play plainHost s strangersScript).isSome = true := by
    decide +kernel
  have hadds : (play plainHost s₀ [ownCall]).map (fun s =>
      ((traceOf plainHost s strangersScript).flatMap fun p => p.2.adds plainHost p.1).length) = some 3 := by
    decide +kernel
  rw [hs] at htotal hadds hplay
  obtain ⟨s', hs'⟩ := Option.isSome_iff_exists.1 hplay
  have hstr : ∀ p ∈ traceOf plainHost s strangersScript, p.2.byStrangers s := by
    rintro ⟨t, act⟩ hp
    obtain ⟨env, op, rfl, hc⟩ := call_of_mem_traceOf hp
    have hopen : ∀ c ∈ strangersScript, ∀ q ∈ c.2.needs, q.2 = .submit := by decide
    exact fun q hq => Or.inl (hopen _ hc q hq)
  refine ⟨s, s', ⟨_, hhist⟩, hstranger, Option.some.inj htotal, _, Option.some.inj hadds, ?_⟩
  exact (history_strangers Function.injective_id hhist (run_of_play hs') hstr).2

end AuditLedger
