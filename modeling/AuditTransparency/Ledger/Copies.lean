/-
  AuditLedger — what the single path leaves, exactly.

  With a time to live configured, the single path also stores the event in the
  persistent store, from where it can expire.  No other call writes there, and none
  but the entry points over the single path writes the temporary store.

  * `Appended` gives the keys of a stored event, of the copy and of the marks in
    temporary storage by what they were before;
  * `backed_of_reachable`: copies and dedup entries belong to positions of the log.
-/
import AuditTransparency.Ledger.Dedup

namespace AuditLedger

open Soroban
open Soroban.Call hiding hasPers publish

variable {D : Type} [DecidableEq D] {H : Host D} {env : Env} {s s' : State D} {op : Op D} {r : Ret D}

/-! ## Calls that write the instance store only -/

-- as for `Reads` and `Writes`
set_option synthInstance.maxSize 1000000000

section

instance (eventId : D) (evt : Event D) : InstanceOnly (placeEvent eventId evt) := by
  unfold placeEvent; infer_instance
instance (eventType : Symbol) (globalIndex : ℕ) :
    InstanceOnly (pushTypeIndex eventType globalIndex : Fn D _) := by
  unfold pushTypeIndex; infer_instance
instance (submitter : Address) (globalIndex : ℕ) :
    InstanceOnly (pushSubmitterIndex submitter globalIndex : Fn D _) := by
  unfold pushSubmitterIndex; infer_instance
instance (submitter : Address) (eventType : Symbol) (index : ℕ) :
    InstanceOnly (emitLogged submitter eventType index : Fn D _) := by
  unfold emitLogged; infer_instance
instance (total : ℕ) : InstanceOnly (syncTotalEvents total : Fn D _) := by
  unfold syncTotalEvents; infer_instance
instance (submitter : Address) : InstanceOnly (chargeRate submitter : Fn D _) := by
  unfold chargeRate; infer_instance
instance (H : Host D) (policy : DedupPolicy) (eventType : Symbol) (submitter : Address)
    (metadata : Bytes) (index timestamp : ℕ) :
    InstanceOnly (recordDedup H policy eventType submitter metadata index timestamp) := by
  unfold recordDedup; cases policy <;> infer_instance
instance (eventType : Symbol) (submitter : Address) (index : ℕ) (typeCount : Option ℕ) :
    InstanceOnly (indexSingle eventType submitter index typeCount : Fn D _) := by
  unfold indexSingle; infer_instance
instance (eventType : Symbol) (submitter : Address) (index : ℕ) :
    InstanceOnly (indexBatch eventType submitter index : Fn D _) := by
  unfold indexBatch; infer_instance
instance (H : Host D) (acc : BatchTail D) (item : Address × Symbol × Bytes) :
    InstanceOnly (appendBatchItem H acc item) := by
  unfold appendBatchItem; infer_instance
instance (H : Host D) (events : List (Address × Symbol × Bytes)) :
    InstanceOnly (logEvents H events) := by
  unfold logEvents; infer_instance

instance (index : ℕ) (newId : D) (evt : Event D) : InstanceOnly (replaceEvent index newId evt) := by
  unfold replaceEvent; infer_instance
instance (H : Host D) (prevHash : D) (i : ℕ) : InstanceOnly (relinkEvent H prevHash i) := by
  unfold relinkEvent; infer_instance
instance (H : Host D) (index total : ℕ) (prevHash : D) :
    InstanceOnly (relinkLater H index total prevHash) := by
  unfold relinkLater; infer_instance
instance (currentId newId : D) (i : ℕ) : InstanceOnly (reparentEvent currentId newId i) := by
  unfold reparentEvent; infer_instance
instance (H : Host D) (index total : ℕ) (versions : List (EventVersion D)) (newId : D)
    (updated : Event D) : InstanceOnly (reviseEvent H index total versions newId updated) := by
  unfold reviseEvent; infer_instance
instance (H : Host D) (caller : Address) (index : ℕ) (newMetadata : Bytes) :
    InstanceOnly (updateEvent H caller index newMetadata) := by
  unfold updateEvent; infer_instance
instance (H : Host D) (caller : Address) (index targetVersion : ℕ) :
    InstanceOnly (rollbackEvent H caller index targetVersion) := by
  unfold rollbackEvent; infer_instance

instance (f : RuntimeState → RuntimeState) : InstanceOnly (syncRuntimeState f : Fn D _) := by
  unfold syncRuntimeState; infer_instance
instance (H : Host D) (executor : Address) (action : ProposalAction) :
    InstanceOnly (performAction H executor action) := by
  cases action <;> unfold performAction <;> infer_instance

instance (H : Host D) (config : ArchiveConfig) (acc : ArchiveScan) (id : D) (evt : Event D) :
    InstanceOnly (archiveCopy H config acc id evt) := by
  unfold archiveCopy; infer_instance
instance (H : Host D) (config : ArchiveConfig) (cutoffTimestamp : ℕ) (acc : ArchiveScan) :
    InstanceOnly (archiveEvent H config cutoffTimestamp acc) := by
  unfold archiveEvent; infer_instance
instance (cutoffTimestamp removed i : ℕ) :
    InstanceOnly (purgeArchivedEvent cutoffTimestamp removed i : Fn D _) := by
  unfold purgeArchivedEvent; infer_instance
instance (contentHash : D) (idx cleaned : ℕ) :
    InstanceOnly (cleanContentHash contentHash idx cleaned) := by
  unfold cleanContentHash; infer_instance
instance (contentHash : D) (idx cleaned : ℕ) :
    InstanceOnly (cleanContentHashWithTs contentHash idx cleaned) := by
  unfold cleanContentHashWithTs; infer_instance
instance (H : Host D) (cleaned idx : ℕ) : InstanceOnly (cleanStaleHash H cleaned idx) := by
  unfold cleanStaleHash; infer_instance
instance (H : Host D) (cleaned idx : ℕ) : InstanceOnly (cleanStaleDedup H cleaned idx) := by
  unfold cleanStaleDedup; infer_instance
instance (round : ℕ → ℕ → Fn D ℕ) (topic : Symbol) (caller : Address) (startIndex batchSize : ℕ)
    [∀ cleaned idx, InstanceOnly (round cleaned idx)] :
    InstanceOnly (cleanupWindow round topic caller startIndex batchSize) := by
  unfold cleanupWindow; infer_instance
instance (removed : ℕ) (eventType : Symbol) : InstanceOnly (compactType removed eventType : Fn D _) := by
  unfold compactType; infer_instance

instance (H : Host D) (caller : Address) (eventIndex : ℕ) (event : Event D) (reason : Symbol) :
    InstanceOnly (eraseMetadata H caller eventIndex event reason) := by
  unfold eraseMetadata; infer_instance
instance (H : Host D) (caller : Address) (erasedCount i : ℕ) :
    InstanceOnly (sweepEvent H caller erasedCount i) := by
  unfold sweepEvent; infer_instance

end

/-- Outside the single path, only the instance store is written. -/
theorem exec_instanceOnly (H : Host D) (op : Op D) (hx : op.submission = none) :
    InstanceOnly (exec H op) := by
  cases op with
  | logEvent | logEventWithNonce | logEventSigned | logEventWithCustomKey | logOperationalAction =>
    cases hx
  | _ =>
    simp only [exec, setSubmitterNonceConfig, resetSubmitterNonce, setDefaultNonceConfig,
      archiveEvents, purgeArchivedEvents, createSnapshot, tagEventVersion, cleanupStaleHashes,
      cleanupStaleDedupEntries, compactStorage, cleanupExpiredEvents, getEvent, setGlobalMaxLogs,
      setEventMaxLogs, removeEventCap, setMetadataMaxSize, setEventMetadataMaxSize,
      setMetadataSchema, setEventTtl, setCategoryMaxLen, setSubmitterRateLimit,
      setEventEmissionMode, setLowCostMode, pause, unpause, blockSubmitter, unblockSubmitter,
      enableAllowlistMode, disableAllowlistMode, allowSubmitter, removeSubmitterFromAllowlist,
      setDedupPolicy, setDedupPolicyForType, setArchiveConfig, transferOwnership, addOwner,
      removeOwner, setRequiredSignatures, setRole, enableRbac, submitProposal, approveProposal,
      executeProposal, registerSchema, migrateEventMetadata, registerWebhook, unregisterWebhook,
      setRetentionPolicy, setDefaultRetentionDays, placeLegalHold, releaseLegalHold,
      grantComplianceException, revokeComplianceException, requestErasure, processErasureRequest,
      runRetentionSweep, addOpsRecorder, removeOpsRecorder]
    infer_instance

/-! ## What the single path leaves -/

/-- The entry that is made for a submission at position `i`. -/
def newEntry (H : Host D) (env : Env) (version : ℕ) (x : Submission) (i : ℕ) (prev : D) : Entry D :=
  let id := computeEventId H env x.submitter x.eventType x.metadata env.timestamp i
  (id, {
    index := i
    timestamp := env.timestamp
    eventType := x.eventType
    category := x.category.getD "general"
    submitter := x.submitter
    metadata := x.metadata
    subEventType := x.subEventType
    version
    eventHash := computeEventHash H id prev i env.timestamp
    prevHash := prev
    parentEventId := none })

/-- `ContractVersion`, 1 when absent. -/
def versionOf (s : State D) : ℕ := (s.inst .contractVersion ()).getD 1

/-- `EventTtl`, 0 when absent. -/
def ttlOf (s : State D) : ℕ := (s.inst .eventTtl ()).getD 0

theorem buildEvent_run (x : Submission) (i : ℕ) (prev : D) :
    (buildEvent H x.submitter x.eventType x.metadata (x.category.getD "general") x.subEventType i
      prev).run env s = .ok (newEntry H env (versionOf s) x i prev, s) := rfl

/-- The log with one more entry: what both paths store, and what they push unless in
    low-cost mode.  The cached count of the type is left out. -/
def lay (s : State D) (q : Entry D) : State D :=
  if lowCost s then putEvent s q.1 q.2
  else
    (((putEvent s q.1 q.2).put .eventTypeIndices q.2.eventType
        (packedType s q.2.eventType ++ u32ToBytes q.2.index)).put
      .submitterEventIndices q.2.submitter
        (packedSubmitter s q.2.submitter ++ u32ToBytes q.2.index)).put
      .submitterEventCount q.2.submitter (submitterTotal s q.2.submitter + 1)

/-- The keys `lay` writes. -/
abbrev layKeys : List DataKey :=
  [.eventData, .eventOrder, .eventHeaderKey, .eventMetadata, .eventTypeIndices,
    .submitterEventIndices, .submitterEventCount]

/-- What the single path leaves when it appends `q` from `s`, with `n` as the cached count. -/
structure Appended (s : State D) (q : Entry D) (n : ℕ) (s' : State D) : Prop where
  laid : ∀ f ∈ layKeys, s'.inst f = (lay s q).inst f
  typeCount : s'.inst .eventTypeCount =
    if lowCost s then s.inst .eventTypeCount
    else Function.update (s.inst .eventTypeCount) q.2.eventType (some n)
  customKey : s.temporary .pendingCustomDedupKey () = none →
    s'.inst .eventCustomKey = s.inst .eventCustomKey
  persistent : s'.persistent =
    if ttlOf s > 0 then s.persistent.set .eventData q.1 q.2 else s.persistent
  temporary : s'.temporary =
    (s.temporary.remove .pendingCustomDedupKey ()).remove .logEventReentrancyGuard ()
  marks : ∀ f ∈ [DataKey.logEventReentrancyGuard, .pendingCustomDedupKey], s'.inst f = s.inst f

section
variable {q : Entry D} {n : ℕ}

/-- Storing and pushing lays the entry. -/
theorem pushIndices_lay {s₁ : State D} (hlow : lowCost s = false)
    (hs : ∀ f ∈ layKeys, s₁.inst f = (putEvent s q.1 q.2).inst f) :
    ∀ f ∈ layKeys, (pushIndices s₁ q.2.eventType q.2.submitter q.2.index n).inst f =
      (lay s q).inst f := by
  intro f hf
  have ht : packedType s₁ q.2.eventType = packedType s q.2.eventType := by
    rw [packedType, hs _ (by simp)]; simp [putEvent, packedType]
  have ha : packedSubmitter s₁ q.2.submitter = packedSubmitter s q.2.submitter := by
    rw [packedSubmitter, hs _ (by simp)]; simp [putEvent, packedSubmitter]
  have hn : submitterTotal s₁ q.2.submitter = submitterTotal s q.2.submitter := by
    rw [submitterTotal, hs _ (by simp)]; simp [putEvent, submitterTotal]
  rw [pushIndices, lay, hlow, ht, ha, hn,
    Ledger.put_inst_ne _ (ne_of_mem_of_not_mem hf (by simp)), if_neg (by simp)]
  exact Ledger.put_inst_congr (Ledger.put_inst_congr (Ledger.put_inst_congr (hs f hf)))

/-- Both paths lay the entry and write the cached count, unless in low-cost mode. -/
theorem post_indexed_lay {s₁ : State D} {m : Fn D Unit}
    (hs : ∀ f ∈ DataKey.lowCostMode :: DataKey.eventTypeCount :: layKeys,
      s₁.inst f = (putEvent s q.1 q.2).inst f)
    (h : ∀ R : Unit → State D → Prop,
      R () (pushIndices s₁ q.2.eventType q.2.submitter q.2.index n) → Post m R env s₁) :
    Post (effectiveLowCostMode >>= fun low => doIf (¬low) m)
      (fun _ s' => (∀ f ∈ layKeys, s'.inst f = (lay s q).inst f) ∧ s'.inst .eventTypeCount =
        if lowCost s then s.inst .eventTypeCount
        else Function.update (s.inst .eventTypeCount) q.2.eventType (some n)) env s₁ := by
  have hlay : ∀ f ∈ layKeys, s₁.inst f = (putEvent s q.1 q.2).inst f :=
    fun f hf => hs f (List.mem_cons_of_mem _ (List.mem_cons_of_mem _ hf))
  have hlow : lowCost s₁ = lowCost s := by
    rw [lowCost, hs _ (by simp)]; simp [putEvent, lowCost]
  have hcount : s₁.inst .eventTypeCount = s.inst .eventTypeCount := by
    rw [hs _ (by simp)]; simp [putEvent]
  refine post_unlessLowCost (fun hl => h _ ?_) fun hl => ?_
  · rw [hlow] at hl
    rw [if_neg (by simp [hl])]
    refine ⟨pushIndices_lay hl hlay, ?_⟩
    simp [pushIndices, hcount]
  · rw [hlow] at hl
    rw [if_pos hl, lay, if_pos hl]
    exact ⟨hlay, hcount⟩

/-- Without a pending key, the map of custom keys is left alone. -/
theorem post_recordDedup_customKey {policy : DedupPolicy} {t : Symbol} {a : Address} {m : Bytes}
    {i ts : ℕ} :
    Post (recordDedup H policy t a m i ts)
      (fun _ s' => s.temporary .pendingCustomDedupKey () = none →
        s'.inst .eventCustomKey = s.inst .eventCustomKey) env s := by
  simp only [recordDedup, post_bind, post_getEnv]
  cases policy with
  | none => exact post_pure.2 fun _ => rfl
  | contentHash => exact post_store.2 fun _ => by simp
  | contentHashWithTimestamp => exact post_store.2 fun _ => by simp
  | custom =>
    rw [pendingCustomKey, post_bind, post_loadTemp, post_ifSome]
    refine ⟨fun key hkey => post_store.2 fun hnone => ?_, fun _ _ => rfl⟩
    rw [hkey] at hnone
    cases hnone

/-- The copy in the persistent store. -/
theorem post_copyEvent {id : D} {evt : Event D} {ttl : ℕ} :
    Post (doIf (ttl > 0) (setPers .eventData id evt))
      (fun _ s' => s'.inst = s.inst ∧ s'.temporary = s.temporary ∧ s'.persistent =
        if ttl > 0 then s.persistent.set .eventData id evt else s.persistent) env s := by
  rw [post_doIf, post_storePers]
  refine ⟨fun hpos => ⟨rfl, rfl, ?_⟩, fun hzero => ⟨rfl, rfl, ?_⟩⟩
  · rw [if_pos hpos]; rfl
  · rw [if_neg hzero]

theorem post_appendSingle_appended {x : Submission} {cfg : Config} {policy : DedupPolicy}
    {typeCount : Option ℕ}
    (hq : newEntry H env (versionOf s) x cfg.totalEvents (prevHashAt H s cfg.totalEvents) = q) :
    Post (appendSingle H x.submitter x.eventType x.metadata x.category x.subEventType cfg policy
        typeCount)
      (fun id s' => id = q.1 ∧ Appended s q
        (typeCount.getD ((packedType s x.eventType).length / 4 + 1) + 1) s') env s := by
  simp only [appendSingle, post_bind, post_getEnv, post_load, post_store, post_clearTemp, post_pure,
    post_addChecked]
  refine post_reads fun prev hprev => post_reads fun _ _ => ?_
  rw [post_prevLink.of_run hprev]
  refine (post_of_run (buildEvent_run x _ _)).2 ?_
  have hty : q.2.eventType = x.eventType := by rw [← hq]; rfl
  have hsub : q.2.submitter = x.submitter := by rw [← hq]; rfl
  have hindex : q.2.index = cfg.totalEvents := by rw [← hq]; rfl
  have httl : ((putEvent s q.1 q.2).inst .eventTtl ()).getD 0 = ttlOf s := by
    simp [putEvent, ttlOf]
  rw [hq]
  refine post_placeEvent.2 (post_copyEvent.mono ?_)
  rw [httl]
  rintro _ s₂ ⟨hinst₂, htemp₂, hpers₂⟩ _ s₃ hrun₃
  have hcustom₃ := post_recordDedup_customKey.of_run hrun₃
  have hf₃ : s₂.Frame
      [DataKey.eventContentHash, DataKey.eventContentHashWithTs, DataKey.eventCustomKey] s₃ :=
    Writes.of_run inferInstance hrun₃
  obtain ⟨hpers₃, htemp₃⟩ := InstanceOnly.of_run inferInstance hrun₃
  have hinst₃ : ∀ f ∈ DataKey.lowCostMode :: DataKey.eventTypeCount :: layKeys,
      (s₃.delTemp .pendingCustomDedupKey ()).inst f = (putEvent s q.1 q.2).inst f := by
    intro f hf
    rw [Ledger.delTemp_inst, hf₃.inst_eq (apart_of_eval rfl) f hf, hinst₂]
  have hpacked : packedType (s₃.delTemp .pendingCustomDedupKey ()) x.eventType =
      packedType s x.eventType := by
    rw [packedType, hinst₃ _ (by simp)]
    simp [putEvent, packedType]
  -- the indices and the counters
  refine post_bind.1 fun _ s₄ hrun₄ hl => ?_
  have hindexed : (∀ f ∈ layKeys, s₄.inst f = (lay s q).inst f) ∧ s₄.inst .eventTypeCount =
      if lowCost s then s.inst .eventTypeCount
      else Function.update (s.inst .eventTypeCount) q.2.eventType
        (some (typeCount.getD ((packedType s x.eventType).length / 4 + 1) + 1)) := by
    refine (post_indexed_lay hinst₃ fun R hR => post_indexSingle fun _ _ => ?_).of_run hrun₄
    rw [hty, hsub, hindex] at hR
    rwa [hpacked]
  have hf₄ : (s₃.delTemp .pendingCustomDedupKey ()).Frame indexWrites s₄ :=
    Writes.of_run (L := layout D) inferInstance hrun₄
  obtain ⟨hpers₄, htemp₄⟩ := InstanceOnly.of_run inferInstance hrun₄
  intro _ s₅ hrun₅
  obtain ⟨hpers₅, htemp₅⟩ := InstanceOnly.of_run inferInstance hrun₅
  intro _ s₆ hrun₆
  obtain ⟨hpers₆, htemp₆⟩ := InstanceOnly.of_run inferInstance hrun₆
  have hf₆ : s₄.Frame [DataKey.config, DataKey.runtimeState] s₆ :=
    ((Ledger.frame_put (by simp)).trans
      ((post_syncTotalEvents.of_run hrun₅).1.mono (by simp))).trans
      ((Writes.of_run (L := layout D) (W := []) inferInstance hrun₆).mono (by simp))
  refine ⟨rfl, ?_⟩
  constructor
  · intro f hf
    rw [Ledger.delTemp_inst, hf₆.inst_eq (apart_of_eval rfl) f hf]
    exact hindexed.1 f hf
  · rw [Ledger.delTemp_inst, hf₆.inst (notMem_of_eval rfl)]
    exact hindexed.2
  · intro hnone
    rw [Ledger.delTemp_inst, hf₆.inst (notMem_of_eval rfl), hf₄.inst (notMem_of_eval rfl), Ledger.delTemp_inst,
      hcustom₃ (htemp₂ ▸ hnone), hinst₂]
    simp [putEvent]
  · rw [Ledger.delTemp_persistent, hpers₆, hpers₅, Ledger.put_persistent, hpers₄,
      Ledger.delTemp_persistent, hpers₃, hpers₂]
    rfl
  · rw [Ledger.delTemp_temporary, htemp₆, htemp₅, Ledger.put_temporary, htemp₄,
      Ledger.delTemp_temporary, htemp₃, htemp₂]
    rfl
  · intro f hf
    simp only [List.mem_cons, List.not_mem_nil, or_false] at hf
    rcases hf with rfl | rfl
    · rw [Ledger.delTemp_inst, hf₆.inst (notMem_of_eval rfl), hf₄.inst (notMem_of_eval rfl), Ledger.delTemp_inst,
        hf₃.inst (notMem_of_eval rfl), hinst₂]
      simp [putEvent]
    · rw [Ledger.delTemp_inst, hf₆.inst (notMem_of_eval rfl), hf₄.inst (notMem_of_eval rfl), Ledger.delTemp_inst,
        hf₃.inst (notMem_of_eval rfl), hinst₂]
      simp [putEvent]

/-- What is written elsewhere first does not matter. -/
theorem lay_congr {s₁ : State D} (h : ∀ f ∈ DataKey.lowCostMode :: layKeys, s₁.inst f = s.inst f) :
    ∀ f ∈ layKeys, (lay s₁ q).inst f = (lay s q).inst f := by
  intro f hf
  have hput : (putEvent s₁ q.1 q.2).inst f = (putEvent s q.1 q.2).inst f :=
    Ledger.put_inst_congr (Ledger.put_inst_congr (Ledger.put_inst_congr (Ledger.put_inst_congr
      (h f (List.mem_cons_of_mem _ hf)))))
  have hlow : lowCost s₁ = lowCost s := by rw [lowCost, h _ (by simp), lowCost]
  have ht : packedType s₁ q.2.eventType = packedType s q.2.eventType := by
    rw [packedType, h _ (by simp), packedType]
  have ha : packedSubmitter s₁ q.2.submitter = packedSubmitter s q.2.submitter := by
    rw [packedSubmitter, h _ (by simp), packedSubmitter]
  have hn : submitterTotal s₁ q.2.submitter = submitterTotal s q.2.submitter := by
    rw [submitterTotal, h _ (by simp), submitterTotal]
  rw [lay, lay, hlow, ht, ha, hn]
  split_ifs
  · exact hput
  · exact Ledger.put_inst_congr (Ledger.put_inst_congr (Ledger.put_inst_congr hput))

/-- Charging the rate and setting the guard first makes no difference. -/
theorem Appended.of_begun {a : Address} {now : ℕ} (h : Appended (begun s a now) q n s') :
    Appended s q n s' := by
  have hf := frame_begun s a now
  have hlow : lowCost (begun s a now) = lowCost s := by rw [lowCost, hf.inst (notMem_of_eval rfl), lowCost]
  have hstores : (begun s a now).persistent = s.persistent ∧
      (begun s a now).temporary = s.temporary.set .logEventReentrancyGuard () true := by
    rw [begun, charge]
    split <;> exact ⟨rfl, rfl⟩
  constructor
  · intro f hf'
    rw [h.laid f hf', lay_congr (hf.inst_eq (apart_of_eval rfl)) f hf']
  · rw [h.typeCount, hlow, hf.inst (notMem_of_eval rfl)]
  · intro hnone
    rw [h.customKey (by rw [hf.temporary (by simp)]; exact hnone), hf.inst (notMem_of_eval rfl)]
  · rw [h.persistent, ttlOf, hf.inst (notMem_of_eval rfl), hstores.1]
    rfl
  · rw [h.temporary, hstores.2]
    funext f
    by_cases hg : f = .logEventReentrancyGuard
    · subst hg; simp
    · by_cases hp : f = .pendingCustomDedupKey
      · subst hp; simp
      · simp [hg, hp]
  · intro f hf'
    rw [h.marks f hf']
    exact (frame_charge _ a now).inst_eq (apart_of_eval rfl) f hf'

/-- **What a successful call of the single path leaves.** -/
theorem post_logEventWithHierarchy_appended {x : Submission} :
    Post (logEventWithHierarchy H x.submitter x.eventType x.metadata x.category x.subEventType x.force)
      (fun id s' => ((duplicateOf H env s x).isSome ∧ s'.persistent = s.persistent) ∨
        duplicateOf H env s x = none ∧ ∃ cfg q, s.inst .config () = some cfg ∧
          q = newEntry H env (versionOf s) x cfg.totalEvents (prevHashAt H s cfg.totalEvents) ∧
          id = q.1 ∧ Appended s q (nextCount s x.eventType) s') env s := by
  refine post_submission fun _ _ _ _ cfg hcfg => post_onSome.2 ⟨fun k hk => ?_, fun hk => ?_⟩
  · simp only [post_bind, post_load, post_unwrap]
    intro id _
    refine Or.inl ⟨by rw [hk]; rfl, ?_⟩
    rw [begun, charge]
    split <;> rfl
  · have hf := frame_begun s x.submitter env.timestamp
    have hversion : versionOf (begun s x.submitter env.timestamp) = versionOf s := by
      rw [versionOf, hf.inst (notMem_of_eval rfl), versionOf]
    have hprev : prevHashAt H (begun s x.submitter env.timestamp) cfg.totalEvents =
        prevHashAt H s cfg.totalEvents := by
      rw [prevHashAt, eventAt, hf.inst (notMem_of_eval rfl), hf.inst (notMem_of_eval rfl)]; rfl
    have hpacked : packedType (begun s x.submitter env.timestamp) x.eventType =
        packedType s x.eventType := by rw [packedType, hf.inst (notMem_of_eval rfl), packedType]
    refine (post_appendSingle_appended (by rw [hversion, hprev])).mono ?_
    rintro id s' ⟨hid, happ⟩
    rw [hpacked] at happ
    exact Or.inr ⟨hk, cfg, _, hcfg, rfl, hid, happ.of_begun⟩

end

/-! ## Positions that are referred to -/

/-- Copies and dedup entries belong to positions below `n`. -/
structure Backed (H : Host D) (s : State D) (n : ℕ) : Prop where
  copies : ∀ id, s.persistent .eventData id ≠ none → ∃ i < n, IdAt H i id
  byHash : ∀ d k, s.inst .eventContentHash d = some k → k < n
  byHashWithTs : ∀ d e, s.inst .eventContentHashWithTs d = some e → e.1 < n

theorem Backed.mono {n m : ℕ} (h : Backed H s n) (hnm : n ≤ m) : Backed H s m where
  copies := by
    intro id hid
    obtain ⟨i, hi, hat⟩ := h.copies id hid
    exact ⟨i, by omega, hat⟩
  byHash d k hk := (h.byHash d k hk).trans_le hnm
  byHashWithTs d e he := (h.byHashWithTs d e he).trans_le hnm

/-- Dedup entries may be removed. -/
theorem Backed.of_shrinks {n : ℕ} (h : Backed H s n) (hsh : Shrinks s s')
    (hp : s'.persistent = s.persistent) : Backed H s' n :=
  ⟨by rw [hp]; exact h.copies, fun d k hk => h.byHash d k (hsh.byHash d k hk),
    fun d e he => h.byHashWithTs d e (hsh.byHashWithTs d e he)⟩

/-- An event is appended at position `n`. -/
theorem Backed.append {n k now : ℕ} {policy : DedupPolicy} {d : D} {q : Entry D} (h : Backed H s n)
    (hd : DedupRecorded policy d n now s s') (hq : IdAt H n q.1) (happ : Appended s q k s') :
    Backed H s' (n + 1) := by
  have h := h.mono (Nat.le_succ n)
  refine ⟨fun id hid => ?_, fun e j hj => ?_, fun e p hp => ?_⟩
  · by_cases hidq : id = q.1
    · exact ⟨n, by omega, hidq ▸ hq⟩
    · refine h.copies id fun hnone => hid ?_
      rw [happ.persistent]
      split_ifs
      · rw [Store.set_same, Function.update_of_ne hidq]; exact hnone
      · exact hnone
  · rw [hd.byHash] at hj
    split_ifs at hj
    · by_cases hed : e = d
      · rw [hed, Function.update_self] at hj
        obtain rfl := Option.some.inj hj
        exact Nat.lt_succ_self n
      · rw [Function.update_of_ne hed] at hj
        exact h.byHash e j hj
    · exact h.byHash e j hj
  · rw [hd.byHashWithTs] at hp
    split_ifs at hp
    · by_cases hed : e = d
      · rw [hed, Function.update_self] at hp
        obtain rfl := Option.some.inj hp
        exact Nat.lt_succ_self n
      · rw [Function.update_of_ne hed] at hp
        exact h.byHashWithTs e p hp
    · exact h.byHashWithTs e p hp

/-- **Every call refers to positions of the log only.** -/
theorem step_backed (hinj : Function.Injective H.sha256) {R : List Record} (hlog : HasLog H s R)
    (h : Backed H s R.length) (hs : Step H env op s r s') :
    Backed H s' (R.length + (op.adds H env s).length) := by
  rcases hx : op.submission with _ | x
  · have hpers := ((exec_instanceOnly H op hx).of_run hs).1
    exact (h.of_shrinks (step_shrinks hx hs) hpers).mono (Nat.le_add_right _ _)
  · obtain ⟨id, s₁, hrun, -, hf, -, hpers⟩ := step_single hx hs
    have hsub := post_logEventWithHierarchy.of_run hrun
    have henter : Backed H (op.enter s) R.length :=
      h.of_shrinks (shrinks_of_eq (by rw [Op.enter_inst]) (by rw [Op.enter_inst]))
        (by unfold Op.enter; split <;> rfl)
    refine Backed.of_shrinks (s := s₁) ?_ (shrinks_of_eq (hf.inst (notMem_of_eval rfl)) (hf.inst (notMem_of_eval rfl))) hpers
    simp only [Op.adds, hx]
    rcases post_logEventWithHierarchy_appended.of_run hrun with
      ⟨hdup, hsame⟩ | ⟨hdup, cfg, q, -, -, hid, happ⟩
    · rw [if_pos hdup, List.length_nil, Nat.add_zero]
      rcases hsub.outcome with ⟨k, -, -, -, hf₁⟩ | ⟨hnone, -⟩
      · exact henter.of_shrinks (shrinks_of_eq (hf₁.inst (notMem_of_eval rfl)) (hf₁.inst (notMem_of_eval rfl))) hsame
      · rw [hnone] at hdup; cases hdup
    · rw [if_neg (by rw [hdup]; simp), List.length_singleton]
      rcases hsub.outcome with ⟨k, hk, -⟩ | ⟨-, i, q', hq', hst⟩
      · rw [hdup] at hk; cases hk
      · obtain ⟨L, hL, rfl⟩ := hlog
        obtain ⟨rfl, -⟩ := hst.inv hinj (hL.of_eq fun _ _ => by rw [Op.enter_inst])
        rw [records, List.length_map] at henter ⊢
        have hat : IdAt H L.length q.1 := by
          rw [← hid, ← hq']; exact hst.entry.idAt
        exact henter.append hst.dedup hat happ

/-- A call leaves no custom key pending. -/
theorem step_pending (h : s.temporary .pendingCustomDedupKey () = none) (hs : Step H env op s r s') :
    s'.temporary .pendingCustomDedupKey () = none := by
  rcases hx : op.submission with _ | x
  · rw [((exec_instanceOnly H op hx).of_run hs).2]
    exact h
  · obtain ⟨id, s₁, hsub, -, hf, htemp⟩ := step_submitted hx hs
    rcases htemp with ⟨henter, htemp⟩ | htemp
    · rw [htemp]
      rcases hsub.outcome with ⟨k, -, -, -, hf₁⟩ | ⟨-, i, q, -, hst⟩
      · rw [hf₁.temporary (by simp), henter]; exact h
      · exact hst.pending
    · exact htemp

theorem persistent_of_init (h : Init s) : s.persistent = Store.empty := by
  obtain ⟨env, owners, g, m, hrun⟩ := h
  have hinst : InstanceOnly (initializeLedger (D := D) owners g m) := by
    unfold initializeLedger; infer_instance
  exact (hinst.of_run hrun).1

/-- **In every reachable state copies and dedup entries belong to positions of the log**, and no
    custom key is pending. -/
theorem backed_of_reachable (hinj : Function.Injective H.sha256) (h : Reachable H s) :
    ∃ L, LogInv H s L ∧ Backed H s L.length ∧ s.temporary .pendingCustomDedupKey () = none := by
  obtain ⟨tr, s₀, h₀, hrun⟩ := h
  obtain ⟨g, m, hinit⟩ := initialized_of_init h₀
  have key : ∃ R, HasLog H s R ∧ Backed H s R.length ∧
      s.temporary .pendingCustomDedupKey () = none := by
    refine hrun.invariant (C := fun _ _ => True) (I := fun s => ∃ R, HasLog H s R ∧
      Backed H s R.length ∧ s.temporary .pendingCustomDedupKey () = none) ?_ ?_ fun _ _ => trivial
    · refine ⟨[], hinit.hasLog, ⟨fun id hid => ?_, fun d k hk => ?_, fun d e he => ?_⟩, ?_⟩
      · rw [persistent_of_init h₀] at hid
        exact (hid rfl).elim
      · rw [(hinit.absent (f := .eventContentHash) (by simp) d).1] at hk; cases hk
      · rw [(hinit.absent (f := .eventContentHashWithTs) (by simp) d).1] at he; cases he
      · exact (hinit.absent (f := .pendingCustomDedupKey) (by simp) ()).2
    · rintro s act s' - hn ⟨R, hR, hb, hp⟩
      refine ⟨_, next_hasLog hinj hR hn, ?_⟩
      cases act with
      | call env op =>
        obtain ⟨r, hs⟩ := hn
        rw [Action.logAfter, List.length_append, length_amendAll]
        exact ⟨step_backed hinj hR hb hs, step_pending hp hs⟩
      | expireTemporary f k =>
        rw [Next] at hn
        subst hn
        refine ⟨hb.of_shrinks (shrinks_of_eq rfl rfl) rfl, ?_⟩
        exact Store.remove_eq_none (L := layout D) hp f k
      | expirePersistent f k =>
        rw [Next] at hn
        subst hn
        refine ⟨⟨fun id hid => hb.copies id fun hnone => hid ?_, hb.byHash, hb.byHashWithTs⟩, hp⟩
        exact Store.remove_eq_none hnone f k
  obtain ⟨R, ⟨L, hL, rfl⟩, hb, hp⟩ := key
  rw [records, List.length_map] at hb
  exact ⟨L, hL, hb, hp⟩

end AuditLedger
