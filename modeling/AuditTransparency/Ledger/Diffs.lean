/-
  AuditLedger — comparing versions.

  `get_event_diff` compares two versions of an event field by field.  All versions of an event have
  the times, type, category and submitter it was logged with, and the contract gives all events one
  version, so that there is one field to find.

  * `next_uniform`: every event and every version is of the version of the contract;
  * `history_diff`: the comparisons report the change of the metadata, and nothing else;
  * `history_replay`: the diffs along a history lead from what was logged to what is live.
-/
import AuditTransparency.Ledger.Restoring

namespace AuditLedger

open Soroban
open Soroban.Call hiding hasPers publish

variable {D : Type} [DecidableEq D]

/-! ## Comparing versions -/

structure FieldChange where
  field : Symbol
  fromValue : Bytes
  toValue : Bytes
  deriving DecidableEq

structure VersionComparison (D : Type) where
  index : ℕ
  fromVersion : ℕ
  toVersion : ℕ
  same : Bool
  changes : List FieldChange
  fromHash : D
  toHash : D
  deriving DecidableEq

/-- `symbol_bytes`: the characters of a symbol are ASCII. -/
def symbolBytes (t : Symbol) : Bytes := t.toList.map fun c => c.toNat.toUInt8

/-- `strkey_bytes` -/
def strkeyBytes (a : Address) : Bytes := a.strkey

/-- `push_field_change` -/
def pushFieldChange (changes : List FieldChange) (field : Symbol) (a b : Bytes) : List FieldChange :=
  if a ≠ b then changes ++ [⟨field, a, b⟩] else changes

/-- `diff_events` -/
def diffEvents (a b : Event D) : List FieldChange :=
  let changes := pushFieldChange [] "metadata" a.metadata b.metadata
  let changes := pushFieldChange changes "event_type" (symbolBytes a.eventType) (symbolBytes b.eventType)
  let changes := pushFieldChange changes "category" (symbolBytes a.category) (symbolBytes b.category)
  let changes := pushFieldChange changes "submitter" (strkeyBytes a.submitter) (strkeyBytes b.submitter)
  let changes := pushFieldChange changes "timestamp" (u64ToBytes a.timestamp) (u64ToBytes b.timestamp)
  pushFieldChange changes "version" (u32ToBytes a.version) (u32ToBytes b.version)

/-- `get_event_audit_trail` -/
def getEventAuditTrail (index : ℕ) : Fn D (List (EventVersion D)) := do
  requireInitialized
  let total ← totalEvents
  if index ≥ total then
    return []
  else do
    let versions ← get .eventVersions index
    onSome versions pure do
      let eventId ← unwrap (← get .eventOrder index)
      let event ← unwrap (← get .eventData eventId)
      return [originalVersion event]

/-- `get_event_diff` -/
def getEventDiff (index fromVersion toVersion : ℕ) : Fn D (List FieldChange) := do
  requireInitialized
  let trail ← getEventAuditTrail index
  if trail = [] then
    return []
  else do
    rejectIf (fromVersion ≥ trail.length ∨ toVersion ≥ trail.length) .invalidVersion
    let a ← unwrap trail[fromVersion]?
    let b ← unwrap trail[toVersion]?
    return diffEvents a.data b.data

/-- `compare_event_versions_detailed` -/
def compareEventVersionsDetailed (index fromVersion toVersion : ℕ) : Fn D (VersionComparison D) := do
  requireInitialized
  let trail ← getEventAuditTrail index
  rejectIf (trail = []) .eventDoesNotExist
  rejectIf (fromVersion ≥ trail.length ∨ toVersion ≥ trail.length) .invalidVersion
  let a ← unwrap trail[fromVersion]?
  let b ← unwrap trail[toVersion]?
  let changes := diffEvents a.data b.data
  return ⟨index, fromVersion, toVersion, changes.isEmpty, changes, a.data.eventHash, b.data.eventHash⟩

/-- `get_event_version_count` -/
def getEventVersionCount (index : ℕ) : Fn D ℕ := do
  let history ← getEventHistory index
  return history.length

/-- `len_a.cmp(&len_b) as i32` -/
def compareLengths (a b : Bytes) : ℤ :=
  if a.length < b.length then -1 else if a.length = b.length then 0 else 1

/-- `compare_event_versions` -/
def compareEventVersions (index versionA versionB : ℕ) : Fn D ℤ := do
  let history ← getEventHistory index
  if history = [] then
    return 0
  else do
    rejectIf (versionA ≥ history.length ∨ versionB ≥ history.length) .invalidVersion
    let a ← unwrap history[versionA]?
    let b ← unwrap history[versionB]?
    return compareLengths a.data.metadata b.data.metadata

/-! ## One version for all -/

variable {H : Host D} {env : Env} {s s' : State D} {id : D} {e e' evt : Event D} {caller : Address}
  {k n i u w : ℕ} {vs : List (EventVersion D)} {L : List (Entry D)} {act : Action D}
  {tr : List (State D × Action D)}

/-- **All events and all versions of events are of version 1.** -/
structure Uniform (s : State D) : Prop where
  live : ∀ id e, s.inst .eventData id = some e → e.version = 1
  past : ∀ i vs, s.inst .eventVersions i = some vs → ∀ v ∈ vs, v.data.version = 1

theorem Uniform.of_eq (h : Uniform s) (hd : s'.inst .eventData = s.inst .eventData)
    (hv : s'.inst .eventVersions = s.inst .eventVersions) : Uniform s' where
  live := by rw [hd]; exact h.live
  past := by rw [hv]; exact h.past

/-- An event is written. -/
theorem Uniform.stored {d : D} {e : Event D} (h : Uniform s) (hevt : e.version = 1)
    (hd : s'.inst .eventData = Function.update (s.inst .eventData) d (some e))
    (hv : s'.inst .eventVersions = s.inst .eventVersions) : Uniform s' where
  live c a ha := by
    rw [hd] at ha
    by_cases hc : c = d
    · subst hc
      rw [Function.update_self] at ha
      rw [← Option.some.inj ha, hevt]
    · rw [Function.update_of_ne hc] at ha
      exact h.live c a ha
  past := by rw [hv]; exact h.past

/-- The versions the history of an event shows. -/
theorem Uniform.history (h : Uniform s) : ∀ v ∈ historyOf s i, v.data.version = 1 := by
  intro v hv
  rw [historyOf] at hv
  rcases hvs : s.inst .eventVersions i with _ | vs
  · rw [hvs] at hv
    obtain ⟨e, he, rfl⟩ : ∃ e, eventAt s i = some e ∧ originalVersion e = v := by simpa using hv
    rw [eventAt, Option.bind_eq_some_iff] at he
    obtain ⟨id, -, he⟩ := he
    exact h.live id e he
  · rw [hvs] at hv
    exact h.past i vs hvs v hv

theorem Uniform.post_reviseEvent (h : Uniform s) (hvs : ∀ v ∈ vs, v.data.version = 1)
    (hevt : evt.version = 1) : Post (reviseEvent H k n vs id evt) (fun _ s' => Uniform s') env s := by
  simp only [reviseEvent, replaceEvent, post_bind, post_store, post_pure]
  refine post_range' (fun _ _ t => Uniform t) _ _ _ _ ?_ ?_
  · have hput : Uniform (s.put .eventVersions k vs) := by
      refine ⟨by simpa using h.live, fun i us hus => ?_⟩
      by_cases hi : i = k
      · subst hi
        obtain rfl : vs = us := by simpa using hus
        exact hvs
      · exact h.past i us (by simpa [Function.update_of_ne hi] using hus)
    exact hput.stored (d := id) hevt (by simp) (by simp)
  intro j x t _ ht
  simp only [relinkEvent, post_bind, post_load, post_unwrap, post_store, post_pure]
  intro d _ e he
  exact ht.stored (d := d) (e := { e with
    prevHash := x
    eventHash := computeEventHash H d x (k + 1 + j) e.timestamp }) (ht.live d e he) (by simp) (by simp)

theorem Uniform.post_reparent {currentId newId : D} (h : Uniform s) :
    Post ((List.range n).foldlM (fun _ i => reparentEvent currentId newId i) ())
      (fun _ s' => Uniform s') env s := by
  refine post_range (fun _ _ t => Uniform t) h ?_
  intro j x t _ ht
  simp only [reparentEvent, post_bind, post_load, post_unwrap, post_doIf, post_store]
  intro d _ e he
  refine ⟨fun _ => ?_, fun _ => ht⟩
  exact ht.stored (d := d) (e := { e with parentEventId := some newId }) (ht.live d e he) (by simp) (by simp)

theorem currentContractVersion_run : (currentContractVersion : Fn D ℕ).run env s = .ok (versionOf s, s) := rfl

theorem Uniform.post_updateEvent {m : Bytes} (hone : versionOf s = 1) (h : Uniform s) :
    Post (updateEvent H caller k m) (fun _ s' => Uniform s') env s := by
  unfold updateEvent
  refine post_bind_reads fun _ _ => post_bind_reads fun _ _ => post_bind_reads fun n _ => ?_
  simp only [post_bind, post_rejectIf, post_load, post_unwrap, post_getEnv, post_ite, post_pure, post_publish]
  intro _ d _ e he
  refine post_reads fun _ _ => ⟨fun _ => h, fun _ => post_reads fun prev _ => post_reads fun version hv => ?_⟩
  obtain rfl : version = 1 := by
    rw [currentContractVersion_run, hone] at hv
    cases hv
    rfl
  refine (h.post_reviseEvent ?_ rfl).mono fun _ s₁ h₁ => h₁.post_reparent.mono fun _ s₂ h₂ => h₂.of_eq rfl rfl
  rw [List.forall_mem_append]
  refine ⟨?_, by simp⟩
  split_ifs
  · exact List.forall_mem_singleton.2 (h.live d e he)
  · rcases hvs : s.inst .eventVersions k with _ | vs
    · exact fun v hv => absurd hv (by simp)
    · exact h.past k vs hvs

theorem Uniform.post_getEventHistory (h : Uniform s) :
    Post (getEventHistory k) (fun us _ => ∀ v ∈ us, v.data.version = 1) env s := by
  unfold getEventHistory
  refine post_bind_reads fun n _ => post_ite.2 ⟨fun _ => post_pure.2 (by simp), fun _ => ?_⟩
  simp only [post_bind, post_load, post_unwrap, post_onSome, post_pure]
  refine ⟨fun vs hvs => h.past k vs hvs, fun _ id _ e he => ?_⟩
  exact List.forall_mem_singleton.2 (h.live id e he)

theorem Uniform.post_rollbackEvent {v : ℕ} (hone : versionOf s = 1) (h : Uniform s) :
    Post (rollbackEvent H caller k v) (fun _ s' => Uniform s') env s := by
  unfold rollbackEvent
  refine post_bind_reads fun _ _ => post_bind_reads fun _ _ => post_bind_reads fun n _ => ?_
  refine post_bind.2 (post_rejectIf.2 fun _ => post_bind_reads fun us hus => ?_)
  simp only [post_bind, post_rejectIf, post_load, post_unwrap, post_getEnv, post_ite, post_pure, post_publish]
  intro _ u _ d _
  refine ⟨fun _ => h, fun _ => post_reads fun prev _ => post_reads fun version hv => ?_⟩
  obtain rfl : version = 1 := by
    rw [currentContractVersion_run, hone] at hv
    cases hv
    rfl
  refine (h.post_reviseEvent ?_ rfl).mono fun _ s₁ h₁ => h₁.of_eq rfl rfl
  rw [List.forall_mem_append]
  exact ⟨h.post_getEventHistory.of_run hus, by simp⟩

theorem Uniform.lay (h : Uniform s) {q : Entry D} (hq : q.2.version = 1) : Uniform (lay s q) := by
  have hput : Uniform (putEvent s q.1 q.2) := h.stored (d := q.1) hq (by simp [putEvent]) (by simp [putEvent])
  unfold AuditLedger.lay
  split
  · exact hput
  · exact hput.of_eq (by simp) (by simp)

theorem Uniform.layAll (h : Uniform s) {M : List (Entry D)} (hM : ∀ q ∈ M, q.2.version = 1) :
    Uniform (layAll s M) := by
  induction M generalizing s with
  | nil => exact h
  | cons q M ih =>
    rw [List.forall_mem_cons] at hM
    exact ih (h.lay hM.1) hM.2

omit [DecidableEq D] in
theorem version_chainOf {v : ℕ} : ∀ (calls : List (Env × Item)) (i : ℕ) (prev : D),
    ∀ q ∈ chainOf H v calls i prev, q.2.version = v
  | [], _, _, _, hq => absurd hq (by simp [chainOf])
  | c :: calls, i, prev, q, hq => by
    rcases List.mem_cons.1 hq with rfl | hq
    · rfl
    · exact version_chainOf calls (i + 1) _ q hq

theorem Uniform.post_logEventWithHierarchy {x : Submission} (hone : versionOf s = 1) (h : Uniform s) :
    Post (logEventWithHierarchy H x.submitter x.eventType x.metadata x.category x.subEventType x.force)
      (fun _ s' => Uniform s') env s := by
  refine (AuditLedger.post_logEventWithHierarchy.and post_logEventWithHierarchy_appended).mono ?_
  rintro _ s' ⟨hsub, ⟨hdup, -⟩ | ⟨hdup, cfg, q, -, hq, -, happ⟩⟩
  · rcases hsub.outcome with ⟨k, -, -, -, hf⟩ | ⟨hnone, -⟩
    · exact h.of_eq (hf.inst (notMem_of_eval rfl)) (hf.inst (notMem_of_eval rfl))
    · rw [hnone] at hdup
      cases hdup
  · rcases hsub.outcome with ⟨k, hk, -⟩ | ⟨-, i, p, -, hst⟩
    · rw [hdup] at hk
      cases hk
    · have hversion : q.2.version = 1 := by rw [hq, ← hone]; rfl
      refine (h.lay hversion).of_eq (happ.laid _ (by simp)) ?_
      rw [hst.frame.inst (notMem_of_eval rfl), (lay_frame s q).inst (notMem_of_eval rfl)]

theorem Uniform.post_logEvents {items : List Item} (hone : versionOf s = 1) (h : Uniform s) :
    Post (logEvents H items) (fun _ s' => Uniform s') env s := by
  have hlaid : Post (logEvents H items) (fun _ s' => ∃ M : List (Entry D), (∀ q ∈ M, q.2.version = 1) ∧
      s'.inst .eventData = (AuditLedger.layAll s M).inst .eventData) env s := by
    unfold logEvents
    refine post_bind_reads fun _ _ => post_bind_reads fun _ _ => post_bind_reads fun _ _ =>
      post_bind_reads fun _ _ => post_bind_reads fun _ _ => post_bind_reads fun _ _ => ?_
    rw [post_bind]
    refine (post_storeBatch_laid items _).mono ?_
    rintro acc s₁ ⟨hlaid, -⟩
    simp only [post_bind, post_store, post_pure]
    refine post_syncTotalEvents.mono fun _ s₂ hs₂ => ?_
    have hf : s₁.Frame [DataKey.config, DataKey.runtimeState] s₂ :=
      (Ledger.frame_put (by simp)).trans (hs₂.1.mono (by simp))
    rw [hone] at hlaid
    exact ⟨_, version_chainOf _ _ _, (hf.inst (notMem_of_eval rfl)).trans (hlaid _ (by simp))⟩
  refine Post.with_frame (L := layout D) (W := batchWrites) (hlaid.mono ?_)
  rintro _ s' ⟨M, hM, hd⟩ hf
  refine ⟨?_, ?_⟩
  · rw [hd]
    exact (h.layAll hM).live
  · rw [hf.inst (notMem_of_eval rfl)]
    exact h.past

theorem uniform_kept (H : Host D) : Kept H (fun s => versionOf s = 1) Uniform where
  reads hs h := h.of_eq (hs _ (by simp)) (hs _ (by simp))
  logs _ hone h := h.post_logEventWithHierarchy hone
  batches _ hone h := h.post_logEvents hone
  updates _ _ _ hone h := h.post_updateEvent hone
  rollbacks _ _ _ hone h := h.post_rollbackEvent hone
  erases caller k e reason hone := by
    refine Post.with_frame (L := layout D) (W := .erasureRecord :: rewriteWrites) fun _ s' _ hf => ?_
    rw [versionOf, hf.inst (notMem_of_eval rfl)]
    exact hone
  enters op hone := by
    rw [versionOf, Op.enter_inst]
    exact hone

/-- **A step keeps the version of the contract and of its events.** -/
theorem next_uniform (hone : versionOf s = 1) (h : Uniform s) (hn : Next H s act s') :
    versionOf s' = 1 ∧ Uniform s' := by
  refine ⟨?_, (uniform_kept H).next hone h hn⟩
  cases act with
  | call env op =>
    obtain ⟨r, hs⟩ := hn
    have hnot : DataKey.contractVersion ∉ op.writes := by
      cases op <;> exact notMem_of_eval rfl
    rw [versionOf, ((exec_writes H op).of_run hs).inst hnot]
    exact hone
  | expireTemporary | expirePersistent =>
    rw [Next] at hn
    subst hn
    exact hone

theorem versionOf_of_init (h : Init s) : versionOf s = 1 := by
  obtain ⟨env, owners, g, m, hrun⟩ := h
  have key : Post (initializeLedger (D := D) owners g m) (fun _ s => versionOf s = 1) env Ledger.empty := by
    simp only [initializeLedger, post_bind, post_load, post_rejectIf, post_unwrap, post_requireAuth,
      post_store]
    intro _ _ primary _ _
    refine Post.with_frame (L := layout D) (W := [.role]) fun _ s' _ hf => ?_
    simp [versionOf, hf.inst]
  exact key.of_run hrun

theorem history_uniform (h : History H tr s) : Uniform s := by
  obtain ⟨s₀, h₀, hrun⟩ := h
  obtain ⟨g, m, hinit⟩ := initialized_of_init h₀
  refine (hrun.invariant (C := fun _ _ => True) (I := fun s => versionOf s = 1 ∧ Uniform s)
    ⟨versionOf_of_init h₀, ?_, ?_⟩ (fun _ _ _ _ hn h => next_uniform h.1 h.2 hn) fun _ _ => trivial).2
  · intro d e he
    rw [(hinit.absent (f := .eventData) (by simp) d).1] at he
    cases he
  · intro i vs hvs
    rw [(hinit.absent (f := .eventVersions) (by simp) i).1] at hvs
    cases hvs

/-! ## Comparisons -/

/-- The change from one metadata to another. -/
def metadataChange (a b : Bytes) : List FieldChange := if a = b then [] else [⟨"metadata", a, b⟩]

theorem pushFieldChange_self (changes : List FieldChange) (field : Symbol) (a : Bytes) :
    pushFieldChange changes field a a = changes := if_neg (by simp)

omit [DecidableEq D] in
/-- Events that differ in the metadata at most. -/
theorem diffEvents_eq (hcore : e.record.core = e'.record.core) (hversion : e.version = e'.version) :
    diffEvents e e' = metadataChange e.metadata e'.metadata := by
  simp only [Record.core, Event.record, Record.mk.injEq] at hcore
  obtain ⟨hts, htype, hcat, hsub, -⟩ := hcore
  simp only [diffEvents, hts, htype, hcat, hsub, hversion, pushFieldChange_self]
  rw [pushFieldChange, metadataChange]
  by_cases h : e.metadata = e'.metadata
  · simp [h]
  · simp [h]

theorem metadataChange_isEmpty (a b : Bytes) : (metadataChange a b).isEmpty = decide (a = b) := by
  rw [metadataChange]
  split_ifs with h
  · simp [h]
  · simp [h]

/-- The trail is the history. -/
theorem LogInv.getEventAuditTrail_run (h : LogInv H s L) :
    (getEventAuditTrail i).run env s = .ok (historyOf s i, s) := by
  have hhist : (getEventHistory i).run env s = .ok (historyOf s i, s) := h.historyOf_run
  rw [getEventAuditTrail, run_bind_ok _ _ h.requireInitialized_run]
  exact hhist

theorem LogInv.getEventVersionCount_run (h : LogInv H s L) :
    (getEventVersionCount i : Fn D ℕ).run env s = .ok ((historyOf s i).length, s) := by
  rw [getEventVersionCount, run_bind_ok _ _ h.historyOf_run]
  rfl

/-- **What the three comparisons say** of the versions `a` and `b` of the event at `i`. -/
structure Compared (s : State D) (i u w : ℕ) (a b : EventVersion D) : Prop where
  diff : ∀ env, (getEventDiff i u w).run env s = .ok (metadataChange a.data.metadata b.data.metadata, s)
  detailed : ∀ env, (compareEventVersionsDetailed i u w).run env s =
    .ok (⟨i, u, w, decide (a.data.metadata = b.data.metadata),
      metadataChange a.data.metadata b.data.metadata, a.data.eventHash, b.data.eventHash⟩, s)
  lengths : ∀ env, (compareEventVersions i u w).run env s =
    .ok (compareLengths a.data.metadata b.data.metadata, s)

/-- All three comparisons fail. -/
def Incomparable (s : State D) (i u w : ℕ) : Prop :=
  ∀ env, (getEventDiff i u w).run env s = .error (.contract .invalidVersion) ∧
    (compareEventVersionsDetailed i u w).run env s = .error (.contract .invalidVersion) ∧
    (compareEventVersions i u w).run env s = .error (.contract .invalidVersion)

theorem LogInv.compared (h : LogInv H s L) (huni : Uniform s) (hi : i < L.length) {a b : EventVersion D}
    (ha : (historyOf s i)[u]? = some a) (hb : (historyOf s i)[w]? = some b) : Compared s i u w a b := by
  have hp : L[i]? = some L[i] := List.getElem?_eq_getElem hi
  have hamem := List.mem_of_getElem? ha
  have hbmem := List.mem_of_getElem? hb
  have hne : historyOf s i ≠ [] := List.ne_nil_of_mem hamem
  have hin : ¬(u ≥ (historyOf s i).length ∨ w ≥ (historyOf s i).length) := by
    have hu := (List.getElem?_eq_some_iff.1 ha).1
    have hw := (List.getElem?_eq_some_iff.1 hb).1
    omega
  have hdiff : diffEvents a.data b.data = metadataChange a.data.metadata b.data.metadata :=
    diffEvents_eq ((h.core_of_history hp hamem).trans (h.core_of_history hp hbmem).symm)
      ((huni.history a hamem).trans (huni.history b hbmem).symm)
  refine ⟨fun env => ?_, fun env => ?_, fun env => ?_⟩
  · rw [getEventDiff, run_bind_ok _ _ h.requireInitialized_run, run_bind_ok _ _ h.getEventAuditTrail_run,
      if_neg hne, run_bind, run_rejectIf, if_neg hin, ha, hb, ← hdiff]
    rfl
  · rw [compareEventVersionsDetailed, run_bind_ok _ _ h.requireInitialized_run,
      run_bind_ok _ _ h.getEventAuditTrail_run, run_bind, run_rejectIf, if_neg hne, Except.bind, run_bind,
      run_rejectIf, if_neg hin, ha, hb, ← metadataChange_isEmpty, ← hdiff]
    rfl
  · rw [compareEventVersions, run_bind_ok _ _ h.historyOf_run, if_neg hne, run_bind, run_rejectIf,
      if_neg hin, ha, hb]
    rfl

theorem LogInv.incomparable (h : LogInv H s L) (hne : historyOf s i ≠ [])
    (hout : (historyOf s i)[u]? = none ∨ (historyOf s i)[w]? = none) : Incomparable s i u w := by
  rw [List.getElem?_eq_none_iff, List.getElem?_eq_none_iff] at hout
  refine fun env => ⟨?_, ?_, ?_⟩
  · rw [getEventDiff, run_bind_ok _ _ h.requireInitialized_run, run_bind_ok _ _ h.getEventAuditTrail_run,
      if_neg hne, run_bind, run_rejectIf, if_pos hout]
    rfl
  · rw [compareEventVersionsDetailed, run_bind_ok _ _ h.requireInitialized_run,
      run_bind_ok _ _ h.getEventAuditTrail_run, run_bind, run_rejectIf, if_neg hne, Except.bind, run_bind,
      run_rejectIf, if_pos hout]
    rfl
  · rw [compareEventVersions, run_bind_ok _ _ h.historyOf_run, if_neg hne, run_bind, run_rejectIf,
      if_pos hout]
    rfl

/-- Nothing to compare. -/
structure Unwritten (s : State D) (i : ℕ) : Prop where
  diff : ∀ env u w, (getEventDiff i u w).run env s = .ok ([], s)
  detailed : ∀ env u w, (compareEventVersionsDetailed i u w).run env s = .error (.contract .eventDoesNotExist)
  lengths : ∀ env u w, (compareEventVersions i u w).run env s = .ok (0, s)
  count : ∀ env, (getEventVersionCount i : Fn D ℕ).run env s = .ok (0, s)

theorem LogInv.unwritten (h : LogInv H s L) (hnil : historyOf s i = []) : Unwritten s i := by
  refine ⟨fun env u w => ?_, fun env u w => ?_, fun env u w => ?_, fun env => ?_⟩
  · rw [getEventDiff, run_bind_ok _ _ h.requireInitialized_run, run_bind_ok _ _ h.getEventAuditTrail_run,
      if_pos hnil]
    rfl
  · rw [compareEventVersionsDetailed, run_bind_ok _ _ h.requireInitialized_run,
      run_bind_ok _ _ h.getEventAuditTrail_run, run_bind, run_rejectIf, if_pos hnil]
    rfl
  · rw [compareEventVersions, run_bind_ok _ _ h.historyOf_run, if_pos hnil]
    rfl
  · rw [h.getEventVersionCount_run, hnil]
    rfl

/-- The versions of an event run from what was logged to what is live. -/
theorem versions_of_history (hinj : Function.Injective H.sha256) (h : History H tr s) (hL : LogInv H s L)
    {p : Entry D} (hp : L[i]? = some p) : ∃ e₀ v vs, LoggedAs H tr s i e₀ ∧ historyOf s i = v :: vs ∧
      v.data.metadata = e₀.metadata ∧
      ((v :: vs).getLast (List.cons_ne_nil v vs)).data.metadata = p.2.metadata := by
  obtain ⟨s₀, h₀, hrun⟩ := h
  obtain ⟨-, -, hall⟩ := faithful_of_run hinj h₀ hrun
  have he : eventAt s i = some p.2 := by
    rw [hL.holds.eventAt_eq, hp]
    rfl
  obtain ⟨e₀, hlog, c, hc, hf⟩ := hall i p.2 he
  obtain rfl : p.2.content = c := by
    rw [contentAt, he] at hc
    exact Option.some.inj hc
  have hfirst := hf.first
  have hlast := hf.last
  rcases hhist : historyOf s i with _ | ⟨v, vs⟩
  · rw [hhist] at hfirst
    cases hfirst
  · rw [hhist] at hfirst
    rw [hhist, List.getLast?_eq_getLast_of_ne_nil (List.cons_ne_nil v vs)] at hlast
    refine ⟨e₀, v, vs, hlog, rfl, ?_, ?_⟩
    · exact congrArg (fun c : Record × Option Symbol => c.1.metadata) (Option.some.inj hfirst)
    · exact congrArg (fun c : Record × Option Symbol => c.1.metadata) (Option.some.inj hlast)

/-- **A comparison reports the change of the metadata, and nothing else**, for every two versions of
    every event of a reachable state. -/
theorem history_diff (hinj : Function.Injective H.sha256) (h : History H tr s) :
    ∃ n, (∀ env, (totalEvents : Fn D ℕ).run env s = .ok (n, s)) ∧ (∀ i ≥ n, Unwritten s i) ∧
      ∀ i < n, ∃ vs, (∀ env, (getEventHistory i).run env s = .ok (vs, s)) ∧
        (∀ env, (getEventAuditTrail i).run env s = .ok (vs, s)) ∧
        (∀ env, (getEventVersionCount i : Fn D ℕ).run env s = .ok (vs.length, s)) ∧
        ∀ u w, (∀ a b, vs[u]? = some a → vs[w]? = some b → Compared s i u w a b) ∧
          (vs.length ≤ u ∨ vs.length ≤ w → Incomparable s i u w) := by
  obtain ⟨R, L, hL, -⟩ := hasLog_of_history hinj h
  refine ⟨L.length, fun env => hL.totalEvents_run, fun i hi => hL.unwritten ?_, fun i hi => ?_⟩
  · have hhist : (getEventHistory i).run ⟨0, 0, fun _ => false, fun _ => 0⟩ s = .ok (historyOf s i, s) :=
      hL.historyOf_run
    rw [getEventHistory, run_bind_ok _ _ hL.totalEvents_run, if_pos hi] at hhist
    exact (Prod.mk.inj (Except.ok.inj hhist)).1.symm
  · obtain ⟨e₀, v, vs, -, hhist, -⟩ := versions_of_history hinj h hL (List.getElem?_eq_getElem hi)
    refine ⟨historyOf s i, fun env => hL.historyOf_run, fun env => hL.getEventAuditTrail_run,
      fun env => hL.getEventVersionCount_run, fun u w => ⟨fun a b ha hb => ?_, fun hout => ?_⟩⟩
    · exact hL.compared (history_uniform h) hi ha hb
    · refine hL.incomparable (by simp [hhist]) ?_
      rwa [List.getElem?_eq_none_iff, List.getElem?_eq_none_iff]

/-- The state after the events of `revisedScript`, and its counts. -/
theorem revised_counts : ∃ tr s, History plainHost tr s ∧
    (∀ n, (totalEvents : Fn Bytes ℕ).run (openEnv 20) s = .ok (n, s) → n = 2) ∧
    ∀ n, (getEventVersionCount 0 : Fn Bytes ℕ).run (openEnv 20) s = .ok (n, s) → n = 3 := by
  let s₀ : State Bytes := deployed (openEnv 10) (account 65) 100 50
  obtain ⟨s, hs⟩ : ∃ s, play plainHost s₀ revisedScript = some s :=
    Option.isSome_iff_exists.1 (by decide +kernel)
  have hcounts : (play plainHost s₀ revisedScript).map (fun s =>
      (((totalEvents : Fn Bytes ℕ).run (openEnv 20) s).toOption.map (·.1),
        ((getEventVersionCount 0 : Fn Bytes ℕ).run (openEnv 20) s).toOption.map (·.1))) =
      some (some 2, some 3) := by decide +kernel
  rw [hs, Option.map_some, Option.some.injEq, Prod.mk.injEq] at hcounts
  refine ⟨_, s, history_of_play (init_deployed rfl 100 50) hs, fun n hn => ?_, fun n hn => ?_⟩
  · rw [hn] at hcounts
    exact Option.some.inj hcounts.1
  · rw [hn] at hcounts
    exact Option.some.inj hcounts.2

theorem history_diff_revisedScript : ∃ s vs, Reachable plainHost s ∧
    (∀ env, (getEventHistory 0).run env s = .ok (vs, s)) ∧ vs.length = 3 ∧
    (∀ u w a b, vs[u]? = some a → vs[w]? = some b → Compared s 0 u w a b) ∧ Incomparable s 0 1 3 ∧
    Unwritten s 2 := by
  obtain ⟨tr, s, h, htwo, hthree⟩ := revised_counts
  obtain ⟨n, hn, hout, hall⟩ := history_diff Function.injective_id h
  obtain rfl := htwo n (hn _)
  obtain ⟨vs, hvs, -, hcount, hcompared⟩ := hall 0 (by omega)
  have hlen : vs.length = 3 := hthree _ (hcount _)
  exact ⟨s, vs, ⟨tr, h⟩, hvs, hlen, fun u w => (hcompared u w).1, (hcompared 1 3).2 (Or.inr hlen.le),
    hout 2 le_rfl⟩

/-! ## Along a history -/

/-- Takes the changes over. -/
def patch (m : Bytes) (changes : List FieldChange) : Bytes :=
  changes.foldl (fun m c => if c.field = "metadata" then c.toValue else m) m

theorem patch_metadataChange (a b : Bytes) : patch a (metadataChange a b) = b := by
  rw [metadataChange]
  split_ifs with h
  · rw [h]
    rfl
  · rfl

/-- The changes from each version to the next. -/
def successiveChanges (vs : List (EventVersion D)) : List (List FieldChange) :=
  List.zipWith (fun a b => metadataChange a.data.metadata b.data.metadata) vs vs.tail

omit [DecidableEq D] in
theorem foldl_patch : ∀ (v : EventVersion D) (vs : List (EventVersion D)),
    (successiveChanges (v :: vs)).foldl patch v.data.metadata =
      ((v :: vs).getLast (List.cons_ne_nil v vs)).data.metadata
  | _, [] => rfl
  | v, w :: vs => by
    have ih := foldl_patch w vs
    rw [successiveChanges, List.tail_cons] at ih ⊢
    rw [List.zipWith_cons_cons, List.foldl_cons, patch_metadataChange, ih,
      List.getLast_cons (List.cons_ne_nil w vs)]

/-- **The diffs along a history replay it**: taken over one after the other, they lead from the
    metadata that was logged to the metadata that is live. -/
theorem history_replay (hinj : Function.Injective H.sha256) (h : History H tr s) :
    ∃ n, (∀ env, (totalEvents : Fn D ℕ).run env s = .ok (n, s)) ∧
      ∀ i < n, ∃ e₀ e, ∃ diffs : List (List FieldChange), LoggedAs H tr s i e₀ ∧
        (∀ env, (getEventByOrder i : Fn D (Event D)).run env s = .ok (e, s)) ∧
        (∀ env, (getEventVersionCount i : Fn D ℕ).run env s = .ok (diffs.length + 1, s)) ∧
        (∀ u d, diffs[u]? = some d → ∀ env, (getEventDiff i u (u + 1)).run env s = .ok (d, s)) ∧
        diffs.foldl patch e₀.metadata = e.metadata := by
  obtain ⟨R, L, hL, -⟩ := hasLog_of_history hinj h
  refine ⟨L.length, fun env => hL.totalEvents_run, fun i hi => ?_⟩
  have hp : L[i]? = some L[i] := List.getElem?_eq_getElem hi
  obtain ⟨e₀, v, vs, hlog, hhist, hfirst, hlast⟩ := versions_of_history hinj h hL hp
  refine ⟨e₀, L[i].2, successiveChanges (v :: vs), hlog, fun env => ?_, fun env => ?_, fun u d hd env => ?_, ?_⟩
  · rw [getEventByOrder, run_bind_ok _ _ hL.requireInitialized_run]
    exact hL.fetch_run hp ..
  · rw [hL.getEventVersionCount_run, hhist]
    simp [successiveChanges]
  · rw [successiveChanges, List.getElem?_zipWith_eq_some] at hd
    obtain ⟨a, b, ha, hb, rfl⟩ := hd
    rw [List.tail_cons] at hb
    exact (hL.compared (history_uniform h) hi (hhist ▸ ha) (hhist ▸ hb)).diff env
  · rw [← hfirst, foldl_patch, hlast]

theorem history_replay_revisedScript : ∃ tr s e₀ e, ∃ diffs : List (List FieldChange),
    LoggedAs plainHost tr s 0 e₀ ∧ (∀ env, (getEventByOrder 0 : Fn Bytes (Event Bytes)).run env s = .ok (e, s)) ∧
    diffs.length = 2 ∧ diffs.foldl patch e₀.metadata = e.metadata := by
  obtain ⟨tr, s, h, htwo, hthree⟩ := revised_counts
  obtain ⟨n, hn, hall⟩ := history_replay Function.injective_id h
  obtain rfl := htwo n (hn _)
  obtain ⟨e₀, e, diffs, hlog, he, hcount, -, hpatch⟩ := hall 0 (by omega)
  exact ⟨tr, s, e₀, e, diffs, hlog, he, Nat.succ.inj (hthree _ (hcount _)), hpatch⟩

end AuditLedger
