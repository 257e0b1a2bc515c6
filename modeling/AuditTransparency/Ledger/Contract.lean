/-
  AuditLedger — the contract as a transition system.

  `Op` has one constructor for every entry point that can write, and `exec` runs
  it.  Between two invocations the network may evict temporary and persistent
  entries whose time to live has ended.  `Reachable` are the states a deployed
  contract can be in: after a successful `initialize` on empty storage, any
  invocations, by anyone, in any order, that succeed.  An invocation that fails
  leaves the ledger as it was, so it is no step.

  `Op.writes` lists the keys an entry point can write; everything else is framed
  (`exec_writes`).  `upgrade_contract` replaces the code and is not part of `Op`.
-/
import AuditTransparency.Ledger.Governance
import AuditTransparency.Ledger.Maintenance
import AuditTransparency.Ledger.Retention
import AuditTransparency.Soroban.Run

namespace AuditLedger

open Soroban
open Soroban.Call hiding hasPers publish

variable {D : Type} [DecidableEq D]

/-! ## Entry points -/

/-- The entry points of the contract that can write. -/
inductive Op (D : Type) where
  | logEvent (submitter : Address) (eventType : Symbol) (metadata : Bytes)
      (category subEventType : Option Symbol) (force : Bool)
  | logEvents (events : List (Address × Symbol × Bytes))
  | logEventWithNonce (submitter : Address) (eventType : Symbol) (metadata : Bytes) (nonce : ℕ)
  | logEventSigned (submitter : Address) (eventType : Symbol) (metadata signaturePayload : Bytes)
  | logEventWithCustomKey (submitter : Address) (eventType : Symbol) (metadata : Bytes)
      (category subEventType : Option Symbol) (force : Bool) (customKey : Option D)
  | logOperationalAction (caller : Address) (actionType : Symbol) (details : Bytes)
  | setSubmitterNonceConfig (caller submitter : Address) (windowSize maxNonce : ℕ)
  | resetSubmitterNonce (caller submitter : Address)
  | setDefaultNonceConfig (caller : Address) (windowSize maxNonce : ℕ)
  | updateEvent (caller : Address) (index : ℕ) (newMetadata : Bytes)
  | rollbackEvent (caller : Address) (index targetVersion : ℕ)
  | archiveEvents (caller : Address) (cutoffTimestamp : ℕ)
  | purgeArchivedEvents (caller : Address) (cutoffTimestamp : ℕ) (confirm : Bool)
  | createSnapshot (caller : Address) (description : Bytes)
  | tagEventVersion (caller : Address) (index version : ℕ) (tag : Symbol)
  | cleanupStaleHashes (caller : Address) (startIndex batchSize : ℕ)
  | cleanupStaleDedupEntries (caller : Address) (startIndex batchSize : ℕ)
  | compactStorage (caller : Address) (staleTypes : List Symbol)
  | cleanupExpiredEvents (caller : Address) (startIndex batchSize : ℕ)
  | getEvent (id : D)
  | setGlobalMaxLogs (caller : Address) (newMax : ℕ)
  | setEventMaxLogs (caller : Address) (eventType : Symbol) (newMax : ℕ)
  | removeEventCap (caller : Address) (eventType : Symbol)
  | setMetadataMaxSize (caller : Address) (maxSize : ℕ)
  | setEventMetadataMaxSize (caller : Address) (eventType : Symbol) (maxSize : ℕ)
  | setMetadataSchema (caller : Address) (eventType : Symbol) (schema : Bytes)
  | setEventTtl (caller : Address) (ttlLedgers : ℕ)
  | setCategoryMaxLen (caller : Address) (maxLen : ℕ)
  | setSubmitterRateLimit (caller submitter : Address) (maxPerTimestamp : ℕ)
  | setEventEmissionMode (caller : Address) (mode : ℕ)
  | setLowCostMode (caller : Address) (enabled : Bool)
  | pause (caller : Address)
  | unpause (caller : Address)
  | blockSubmitter (caller submitter : Address)
  | unblockSubmitter (caller submitter : Address)
  | enableAllowlistMode (caller : Address)
  | disableAllowlistMode (caller : Address)
  | allowSubmitter (caller submitter : Address)
  | removeSubmitterFromAllowlist (caller submitter : Address)
  | setDedupPolicy (caller : Address) (policy : DedupPolicy)
  | setDedupPolicyForType (caller : Address) (eventType : Symbol) (policy : Option DedupPolicy)
  | setArchiveConfig (caller : Address) (config : ArchiveConfig)
  | transferOwnership (caller newOwner : Address)
  | addOwner (caller newOwner : Address)
  | removeOwner (caller ownerToRemove : Address)
  | setRequiredSignatures (caller : Address) (required : ℕ)
  | setRole (caller target : Address) (role : Option Role)
  | enableRbac (caller : Address) (enabled : Bool)
  | submitProposal (proposer : Address) (action : ProposalAction) (ttlSeconds : ℕ)
  | approveProposal (approver : Address) (proposalId : ℕ)
  | executeProposal (executor : Address) (proposalId : ℕ)
  | registerSchema (caller : Address) (eventType : Symbol) (schema : Schema) (version : ℕ)
  | migrateEventMetadata (caller : Address) (eventType : Symbol) (fromVersion toVersion : ℕ)
      (migrationFn : MigrationFunction)
  | registerWebhook (caller : Address) (eventType : Symbol) (url secret : Bytes)
  | unregisterWebhook (caller : Address) (eventType : Symbol) (url : Bytes)
  | setRetentionPolicy (caller : Address) (category : Symbol) (retentionDays : ℕ)
      (legalBasis : Symbol)
  | setDefaultRetentionDays (caller : Address) (days : ℕ)
  | placeLegalHold (caller : Address) (eventIndex : ℕ) (reason : Bytes)
  | releaseLegalHold (caller : Address) (eventIndex : ℕ) (justification : Bytes)
  | grantComplianceException (caller : Address) (eventIndex : ℕ) (reason : Bytes) (expiresAt : ℕ)
  | revokeComplianceException (caller : Address) (eventIndex : ℕ)
  | requestErasure (requester : Address) (eventIndex : ℕ) (reason : Symbol)
  | processErasureRequest (caller : Address) (requestId : ℕ) (approve : Bool)
      (justification : Bytes)
  | runRetentionSweep (caller : Address) (startIndex batchSize : ℕ)
  | addOpsRecorder (caller recorder : Address)
  | removeOpsRecorder (caller recorder : Address)

/-- What an entry point returns. -/
inductive Ret (D : Type) where
  | unit
  | id (d : D)
  | nat (n : ℕ)
  | nats (l : List ℕ)
  | event (e : Event D)
  deriving DecidableEq

/-- Runs an entry point. -/
def exec (H : Host D) : Op D → Fn D (Ret D)
  | .logEvent a t m c e f => return .id (← logEvent H a t m c e f)
  | .logEvents events => return .nats (← logEvents H events)
  | .logEventWithNonce a t m n => return .id (← logEventWithNonce H a t m n)
  | .logEventSigned a t m p => return .id (← logEventSigned H a t m p)
  | .logEventWithCustomKey a t m c e f k => return .id (← logEventWithCustomKey H a t m c e f k)
  | .logOperationalAction a t m => return .id (← logOperationalAction H a t m)
  | .setSubmitterNonceConfig a b w m => do setSubmitterNonceConfig H a b w m; return .unit
  | .resetSubmitterNonce a b => do resetSubmitterNonce H a b; return .unit
  | .setDefaultNonceConfig a w m => do setDefaultNonceConfig a w m; return .unit
  | .updateEvent a i m => return .id (← updateEvent H a i m)
  | .rollbackEvent a i v => return .id (← rollbackEvent H a i v)
  | .archiveEvents a c => return .nat (← archiveEvents H a c)
  | .purgeArchivedEvents a c b => return .nat (← purgeArchivedEvents a c b)
  | .createSnapshot a d => return .nat (← createSnapshot H a d)
  | .tagEventVersion a i v t => do tagEventVersion a i v t; return .unit
  | .cleanupStaleHashes a i n => return .nat (← cleanupStaleHashes H a i n)
  | .cleanupStaleDedupEntries a i n => return .nat (← cleanupStaleDedupEntries H a i n)
  | .compactStorage a l => return .nat (← compactStorage a l)
  | .cleanupExpiredEvents a i n => return .nat (← cleanupExpiredEvents a i n)
  | .getEvent id => return .event (← getEvent id)
  | .setGlobalMaxLogs a n => do setGlobalMaxLogs a n; return .unit
  | .setEventMaxLogs a t n => do setEventMaxLogs a t n; return .unit
  | .removeEventCap a t => do removeEventCap a t; return .unit
  | .setMetadataMaxSize a n => do setMetadataMaxSize a n; return .unit
  | .setEventMetadataMaxSize a t n => do setEventMetadataMaxSize a t n; return .unit
  | .setMetadataSchema a t s => do setMetadataSchema a t s; return .unit
  | .setEventTtl a n => do setEventTtl a n; return .unit
  | .setCategoryMaxLen a n => do setCategoryMaxLen a n; return .unit
  | .setSubmitterRateLimit a b n => do setSubmitterRateLimit a b n; return .unit
  | .setEventEmissionMode a n => do setEventEmissionMode a n; return .unit
  | .setLowCostMode a b => do setLowCostMode a b; return .unit
  | .pause a => do pause a; return .unit
  | .unpause a => do unpause a; return .unit
  | .blockSubmitter a b => do blockSubmitter a b; return .unit
  | .unblockSubmitter a b => do unblockSubmitter a b; return .unit
  | .enableAllowlistMode a => do enableAllowlistMode a; return .unit
  | .disableAllowlistMode a => do disableAllowlistMode a; return .unit
  | .allowSubmitter a b => do allowSubmitter a b; return .unit
  | .removeSubmitterFromAllowlist a b => do removeSubmitterFromAllowlist a b; return .unit
  | .setDedupPolicy a p => do setDedupPolicy a p; return .unit
  | .setDedupPolicyForType a t p => do setDedupPolicyForType a t p; return .unit
  | .setArchiveConfig a c => do setArchiveConfig a c; return .unit
  | .transferOwnership a b => do transferOwnership a b; return .unit
  | .addOwner a b => do addOwner a b; return .unit
  | .removeOwner a b => do removeOwner a b; return .unit
  | .setRequiredSignatures a n => do setRequiredSignatures a n; return .unit
  | .setRole a b r => do setRole a b r; return .unit
  | .enableRbac a b => do enableRbac a b; return .unit
  | .submitProposal a p n => return .nat (← submitProposal a p n)
  | .approveProposal a i => do approveProposal a i; return .unit
  | .executeProposal a i => do executeProposal H a i; return .unit
  | .registerSchema a t s v => do registerSchema a t s v; return .unit
  | .migrateEventMetadata a t v w f => do migrateEventMetadata a t v w f; return .unit
  | .registerWebhook a t u s => do registerWebhook a t u s; return .unit
  | .unregisterWebhook a t u => do unregisterWebhook a t u; return .unit
  | .setRetentionPolicy a c n b => do setRetentionPolicy a c n b; return .unit
  | .setDefaultRetentionDays a n => do setDefaultRetentionDays a n; return .unit
  | .placeLegalHold a i r => do placeLegalHold a i r; return .unit
  | .releaseLegalHold a i j => do releaseLegalHold a i j; return .unit
  | .grantComplianceException a i r n => do grantComplianceException a i r n; return .unit
  | .revokeComplianceException a i => do revokeComplianceException a i; return .unit
  | .requestErasure a i r => return .nat (← requestErasure a i r)
  | .processErasureRequest a i b j => do processErasureRequest H a i b j; return .unit
  | .runRetentionSweep a i n => return .nat (← runRetentionSweep H a i n)
  | .addOpsRecorder a b => do addOpsRecorder a b; return .unit
  | .removeOpsRecorder a b => do removeOpsRecorder a b; return .unit

/-! ## What an entry point writes -/

/-- The keys an entry point can write. -/
@[reducible] def Op.writes : Op D → List DataKey
  | logEvent .. | logEventWithCustomKey .. | logOperationalAction .. => singleWrites
  | logEvents .. => batchWrites
  | logEventWithNonce .. => .submitterNonce :: singleWrites
  | logEventSigned .. => .eventSignature :: singleWrites
  | setSubmitterNonceConfig .. => [.submitterNonceConfig]
  | resetSubmitterNonce .. => [.submitterNonce, .submitterNonceConfig]
  | setDefaultNonceConfig .. => [.defaultNonceWindowSize, .defaultNonceMaxValue]
  | updateEvent .. | rollbackEvent .. => rewriteWrites
  | archiveEvents .. =>
    [.archivedEventHeaderKey, .archivedEventMetadata, .archivedEventRefKey, .archivedEventData,
      .eventArchivedFlag, .archivedEventOrder, .archiveScanCursor, .archivedTotalEvents,
      .archivedCompressedCount, .archivedOffchainCount]
  | purgeArchivedEvents .. =>
    [.archivedEventHeaderKey, .archivedEventMetadata, .archivedEventData, .archivedEventOrder]
  | createSnapshot .. => [.snapshotData, .snapshotCount]
  | tagEventVersion .. => [.eventVersionTag]
  | cleanupStaleHashes .. => [.eventContentHash]
  | cleanupStaleDedupEntries .. => [.eventContentHash, .eventContentHashWithTs]
  | compactStorage .. => [.eventTypeIndices]
  | cleanupExpiredEvents .. | getEvent .. => [.ttlCleanupStats]
  | setGlobalMaxLogs .. => [.config, .globalMaxLogs, .runtimeState]
  | setEventMaxLogs .. =>
    [.eventCapSet, .eventMaxLogs, .eventCapConfig, .eventCapRemoved, .eventTypeIndices]
  | removeEventCap .. => [.eventMaxLogs, .eventCapConfig, .eventCapRemoved]
  | setMetadataMaxSize .. => [.globalMetadataMaxSize, .runtimeState]
  | setEventMetadataMaxSize .. => [.eventMetadataMaxSize]
  | setMetadataSchema .. => [.metadataSchema]
  | setEventTtl .. => [.eventTtl]
  | setCategoryMaxLen .. => [.categoryMaxLen]
  | setSubmitterRateLimit .. => [.submitterRateLimit]
  | setEventEmissionMode .. => [.eventEmissionConfig, .eventEmissionVersion, .runtimeState]
  | setLowCostMode .. => [.lowCostMode, .runtimeState]
  | pause .. => [.paused]
  | unpause .. => [.paused, .pausedSince]
  | blockSubmitter .. | unblockSubmitter .. => [.submitterBlocklist]
  | enableAllowlistMode .. => [.allowlistMode, .runtimeState]
  | disableAllowlistMode .. => [.allowlistMode]
  | allowSubmitter .. | removeSubmitterFromAllowlist .. => [.submitterAllowlist]
  | setDedupPolicy .. => [.dedupPolicyConfig]
  | setDedupPolicyForType .. => [.dedupPolicyConfigForType]
  | setArchiveConfig .. => [.archiveConfig]
  | transferOwnership .. => [.owner, .owners, .role]
  | addOwner .. => [.owners, .role]
  | removeOwner .. => [.owners, .requiredSignatures]
  | setRequiredSignatures .. => [.requiredSignatures]
  | setRole .. => [.role]
  | enableRbac .. => [.rbacEnabled]
  | submitProposal .. => [.proposal, .proposalCount]
  | approveProposal .. => [.proposal]
  | executeProposal .. => .proposal :: actionWrites
  | registerSchema .. => [.schemaVersions, .eventSchema]
  | migrateEventMetadata .. => [.eventSchemaMigration]
  | registerWebhook .. | unregisterWebhook .. => [.webhookRegistrations]
  | setRetentionPolicy .. => [.retentionPolicy]
  | setDefaultRetentionDays .. => [.defaultRetentionDays]
  | placeLegalHold .. | releaseLegalHold .. => [.legalHold]
  | grantComplianceException .. | revokeComplianceException .. => [.complianceException]
  | requestErasure .. => [.erasureRequest, .erasureRequestCount]
  | processErasureRequest .. => .erasureRequest :: .erasureRecord :: rewriteWrites
  | runRetentionSweep .. => .erasureRecord :: rewriteWrites
  | addOpsRecorder .. | removeOpsRecorder .. => [.opsAuditRecorders]

set_option synthInstance.maxSize 1000000000 in
/-- **Frame of the contract.**  An entry point writes only `Op.writes`. -/
theorem exec_writes (H : Host D) (op : Op D) : Writes (layout D) op.writes (exec H op) := by
  cases op <;>
    simp only [exec, Op.writes, logEvent, logEventWithNonce, logEventSigned, logEventWithCustomKey,
      logOperationalAction, setSubmitterNonceConfig, resetSubmitterNonce, setDefaultNonceConfig,
      archiveEvents, purgeArchivedEvents, createSnapshot, tagEventVersion, cleanupStaleHashes,
      cleanupStaleDedupEntries, compactStorage, cleanupExpiredEvents, getEvent, setGlobalMaxLogs,
      setEventMaxLogs, removeEventCap, setMetadataMaxSize, setEventMetadataMaxSize,
      setMetadataSchema, setEventTtl, setCategoryMaxLen, setSubmitterRateLimit,
      setEventEmissionMode, setLowCostMode, pause, unpause, blockSubmitter, unblockSubmitter,
      enableAllowlistMode, disableAllowlistMode, allowSubmitter, removeSubmitterFromAllowlist,
      setDedupPolicy, setDedupPolicyForType, setArchiveConfig, transferOwnership, addOwner,
      removeOwner, setRequiredSignatures, setRole, enableRbac, submitProposal, approveProposal,
      executeProposal, registerSchema, migrateEventMetadata, registerWebhook, unregisterWebhook,
      setRetentionPolicy, setDefaultRetentionDays, placeLegalHold, releaseLegalHold,
      grantComplianceException, revokeComplianceException, requestErasure, processErasureRequest,
      runRetentionSweep, addOpsRecorder, removeOpsRecorder] <;>
    infer_instance

/-! ## Runs -/

/-- What can happen to a deployed contract: an invocation, or the end of the time
    to live of an entry. -/
inductive Action (D : Type) where
  | call (env : Env) (op : Op D)
  | expireTemporary (f : DataKey) (k : f.Key D)
  | expirePersistent (f : DataKey) (k : f.Key D)

/-- A successful invocation `op` from `s`, returning `r`, leaves `s'`. -/
def Step (H : Host D) (env : Env) (op : Op D) (s : State D) (r : Ret D) (s' : State D) : Prop :=
  (exec H op).run env s = .ok (r, s')

/-- One step of the contract. -/
def Next (H : Host D) (s : State D) : Action D → State D → Prop
  | .call env op, s' => ∃ r, Step H env op s r s'
  | .expireTemporary f k, s' => s' = s.delTemp f k
  | .expirePersistent f k, s' => s' = s.delPers f k

/-- A successful `initialize` on empty storage. -/
def Init (s : State D) : Prop :=
  ∃ env owners globalMaxLogs maxMetadataBytes,
    (initializeLedger owners globalMaxLogs maxMetadataBytes).run env Ledger.empty = .ok ((), s)

/-- `s` is reached from `initialize` by the steps of `tr`. -/
def History (H : Host D) (tr : List (State D × Action D)) (s : State D) : Prop :=
  ∃ s₀, Init s₀ ∧ Run (Next H) s₀ tr s

/-- `s` is reached from `initialize` by some run. -/
def Reachable (H : Host D) (s : State D) : Prop := ∃ tr, History H tr s

/-- The ledger timestamps of the calls of a trace. -/
def times (tr : List (State D × Action D)) : List ℕ :=
  tr.filterMap fun p => match p.2 with
    | .call env _ => some env.timestamp
    | _ => none

/-- Ledger time does not run backwards. -/
def Timely (tr : List (State D × Action D)) : Prop := (times tr).Pairwise (· ≤ ·)

instance (tr : List (State D × Action D)) : Decidable (Timely tr) :=
  inferInstanceAs (Decidable ((times tr).Pairwise (· ≤ ·)))

theorem times_call (tr : List (State D × Action D)) (s : State D) (env : Env) (op : Op D) :
    times (tr ++ [(s, .call env op)]) = times tr ++ [env.timestamp] := by
  simp [times, List.filterMap_append]

theorem times_expired (tr : List (State D × Action D)) (s : State D) (f : DataKey) (k : f.Key D) :
    times (tr ++ [(s, .expireTemporary f k)]) = times tr ∧
    times (tr ++ [(s, .expirePersistent f k)]) = times tr := by
  simp [times, List.filterMap_append]

theorem timely_call {tr : List (State D × Action D)} {s : State D} {env : Env} {op : Op D} :
    Timely (tr ++ [(s, .call env op)]) ↔ Timely tr ∧ ∀ t ∈ times tr, t ≤ env.timestamp := by
  rw [Timely, times_call, List.pairwise_append, Timely]
  simp

theorem Timely.of_append {tr tr' : List (State D × Action D)} (h : Timely (tr ++ tr')) : Timely tr := by
  rw [Timely, times, List.filterMap_append] at h
  exact (List.pairwise_append.1 h).1

/-! ## Scripts -/

/-- The state after a list of calls; `none` when one of them fails. -/
def play (H : Host D) (s : State D) : List (Env × Op D) → Option (State D)
  | [] => some s
  | (env, op) :: rest =>
    match (exec H op).run env s with
    | .ok (_, s') => play H s' rest
    | .error _ => none

/-- The trace of a list of calls, up to the first that fails. -/
def traceOf (H : Host D) (s : State D) : List (Env × Op D) → List (State D × Action D)
  | [] => []
  | (env, op) :: rest =>
    (s, .call env op) :: match (exec H op).run env s with
      | .ok (_, s') => traceOf H s' rest
      | .error _ => []

theorem call_of_mem_traceOf {H : Host D} {script : List (Env × Op D)} {s : State D}
    {p : State D × Action D}
    (h : p ∈ traceOf H s script) : ∃ env op, p.2 = .call env op ∧ (env, op) ∈ script := by
  induction script generalizing s with
  | nil => cases h
  | cons c rest ih =>
    obtain ⟨env, op⟩ := c
    simp only [traceOf, List.mem_cons] at h
    rcases h with rfl | h
    · exact ⟨env, op, rfl, List.mem_cons_self⟩
    · rcases hrun : (exec H op).run env s with e | ⟨r, s₂⟩
      · rw [hrun] at h; cases h
      · rw [hrun] at h
        obtain ⟨env', op', hact, hmem⟩ := ih h
        exact ⟨env', op', hact, List.mem_cons_of_mem _ hmem⟩

theorem mem_of_mem_traceOf {H : Host D} {script : List (Env × Op D)} {env : Env} {op : Op D}
    {s s₁ : State D} (h : (s₁, Action.call env op) ∈ traceOf H s script) : (env, op) ∈ script := by
  obtain ⟨env', op', hact, hmem⟩ := call_of_mem_traceOf h
  cases hact
  exact hmem

theorem run_of_play {H : Host D} {s s' : State D} {script : List (Env × Op D)}
    (h : play H s script = some s') : Run (Next H) s (traceOf H s script) s' := by
  induction script generalizing s with
  | nil =>
    obtain rfl : s = s' := Option.some.inj h
    exact .init
  | cons c rest ih =>
    obtain ⟨env, op⟩ := c
    simp only [play] at h
    simp only [traceOf]
    rcases hrun : (exec H op).run env s with e | ⟨r, s₁⟩
    · rw [hrun] at h; cases h
    · rw [hrun] at h
      exact Run.append (.snoc .init ⟨r, hrun⟩) (ih h)

theorem play_snoc {H : Host D} {s s₁ s' : State D} {script : List (Env × Op D)} {env : Env} {op : Op D}
    {r : Ret D} (h : play H s script = some s₁) (hs : Step H env op s₁ r s') :
    play H s (script ++ [(env, op)]) = some s' := by
  induction script generalizing s with
  | nil =>
    obtain rfl : s = s₁ := Option.some.inj h
    have hrun : (exec H op).run env s = .ok (r, s') := hs
    simp only [List.nil_append, play, hrun]
  | cons c rest ih =>
    obtain ⟨env', op'⟩ := c
    simp only [List.cons_append, play] at h ⊢
    rcases hrun : (exec H op').run env' s with e | ⟨r', s₂⟩
    · rw [hrun] at h; cases h
    · rw [hrun] at h; exact ih h

/-- The last call of a script. -/
theorem step_of_play {H : Host D} {s s' : State D} {script : List (Env × Op D)} {env : Env} {op : Op D}
    (h : play H s (script ++ [(env, op)]) = some s') :
    ∃ s₁ r, play H s script = some s₁ ∧ Step H env op s₁ r s' := by
  induction script generalizing s with
  | nil =>
    simp only [List.nil_append, play] at h
    rcases hrun : (exec H op).run env s with e | ⟨r, s₁⟩
    · rw [hrun] at h; cases h
    · rw [hrun] at h
      obtain rfl : s₁ = s' := Option.some.inj h
      exact ⟨s, r, rfl, hrun⟩
  | cons c rest ih =>
    obtain ⟨env', op'⟩ := c
    simp only [List.cons_append, play] at h ⊢
    rcases hrun : (exec H op').run env' s with e | ⟨r, s₁⟩
    · rw [hrun] at h; cases h
    · rw [hrun] at h; exact ih h

/-- A script leaves alone what none of its calls writes. -/
theorem inst_of_play {H : Host D} {s s' : State D} {script : List (Env × Op D)} {f : DataKey}
    (h : play H s script = some s') (hf : ∀ c ∈ script, f ∉ c.2.writes) : s'.inst f = s.inst f := by
  induction script generalizing s with
  | nil =>
    cases h
    rfl
  | cons c rest ih =>
    obtain ⟨env, op⟩ := c
    simp only [play] at h
    rcases hrun : (exec H op).run env s with e | ⟨r, s₁⟩
    · rw [hrun] at h; cases h
    · rw [hrun] at h
      rw [List.forall_mem_cons] at hf
      rw [ih h hf.2, ((exec_writes H op).of_run hrun).inst hf.1]

/-- A contract set up by `primary`, with room for `globalMaxLogs` events. -/
def deployed (env : Env) (primary : Address) (globalMaxLogs maxMetadataBytes : ℕ) : State D :=
  match (initializeLedger [primary] globalMaxLogs maxMetadataBytes).run env Ledger.empty with
  | .ok (_, s) => s
  | .error _ => Ledger.empty

theorem deployed_run {env : Env} {primary : Address} (h : env.auth primary = true)
    (globalMaxLogs maxMetadataBytes : ℕ) :
    (initializeLedger [primary] globalMaxLogs maxMetadataBytes).run env Ledger.empty =
      .ok ((), deployed (D := D) env primary globalMaxLogs maxMetadataBytes) := by
  have hempty : (Ledger.empty : State D).inst .owner () = none := rfl
  simp [deployed, initializeLedger, run_bind, run_rejectIf, run_requireAuth, Except.bind, hempty, h]

theorem init_deployed {env : Env} {primary : Address} (h : env.auth primary = true)
    (globalMaxLogs maxMetadataBytes : ℕ) :
    Init (deployed (D := D) env primary globalMaxLogs maxMetadataBytes) :=
  ⟨env, [primary], globalMaxLogs, maxMetadataBytes, deployed_run h globalMaxLogs maxMetadataBytes⟩

/-- The code of a character in a short symbol. -/
def symbolCode (c : Char) : UInt64 :=
  if c = '_' then 1
  else if c.toNat < 58 then c.toNat.toUInt64 - 46
  else if c.toNat < 91 then c.toNat.toUInt64 - 53
  else c.toNat.toUInt64 - 59

/-- The payload of a short symbol: six bits for every character, and the tag. -/
def symbolPayload (t : Symbol) : UInt64 :=
  (t.toList.foldl (fun acc c => acc * 64 + symbolCode c) 0) * 256 + 14

/-- An invocation at time `t` that everyone has authorised. -/
def openEnv (t : ℕ) : Env := ⟨t, 0, fun _ => true, symbolPayload⟩

/-- A host to evaluate the contract with: byte strings are their own digests. -/
def plainHost : Host Bytes := ⟨id, id, List.replicate 32 0, nullAccount, fun o => o.getD (2 ^ 32 - 1)⟩

/-- An account, by the characters that follow the `G` of its strkey. -/
def account (c : UInt8) : Address := ⟨71 :: List.replicate 55 c, by simp⟩

/-- A script that succeeds on a deployed contract is a history. -/
theorem history_of_play {H : Host D} {s₀ s : State D} {script : List (Env × Op D)} (h₀ : Init s₀)
    (h : play H s₀ script = some s) : History H (traceOf H s₀ script) s := ⟨s₀, h₀, run_of_play h⟩

/-- A script, seen from one of its calls. -/
theorem history_around {H : Host D} {s₀ s : State D} {pre post : List (Env × Op D)} {env : Env}
    {op : Op D}
    (h₀ : Init s₀) (h : play H s₀ (pre ++ (env, op) :: post) = some s) :
    ∃ s₁ r s₂, play H s₀ pre = some s₁ ∧ Step H env op s₁ r s₂ ∧ play H s₂ post = some s ∧
      History H (traceOf H s₀ pre ++ (s₁, .call env op) :: traceOf H s₂ post) s := by
  obtain ⟨s₁, r, s₂, hpre, hs, hpost⟩ : ∃ s₁ r s₂, play H s₀ pre = some s₁ ∧ Step H env op s₁ r s₂ ∧
      play H s₂ post = some s := by
    clear h₀
    induction pre generalizing s₀ with
    | nil =>
      simp only [List.nil_append, play] at h
      rcases hrun : (exec H op).run env s₀ with e | ⟨r, s₁⟩
      · rw [hrun] at h; cases h
      · rw [hrun] at h; exact ⟨s₀, r, s₁, rfl, hrun, h⟩
    | cons c rest ih =>
      obtain ⟨env', op'⟩ := c
      simp only [List.cons_append, play] at h ⊢
      rcases hrun : (exec H op').run env' s₀ with e | ⟨r, s₁⟩
      · rw [hrun] at h; cases h
      · rw [hrun] at h; exact ih h
  refine ⟨s₁, r, s₂, hpre, hs, hpost, s₀, h₀, (run_of_play hpre).append ?_⟩
  exact Run.append (.snoc .init ⟨r, hs⟩) (run_of_play hpost)

end AuditLedger
