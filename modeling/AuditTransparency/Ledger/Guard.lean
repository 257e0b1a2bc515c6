/-
  AuditLedger — the reentrancy guard.

  `log_event_with_hierarchy` sets `LogEventReentrancyGuard` in temporary storage and
  removes it where it has stored the event.  When it finds a duplicate it returns
  before that, and the guard is still there for the next invocation.

  * `history_reenterable`: the guard and the pending custom key are absent between all
    invocations of a run exactly when none of them finds a duplicate; then no
    invocation is rejected for reentrancy;
  * `guard_outlives_duplicate`: after a duplicate, the next call is rejected.
-/
import AuditTransparency.Ledger.Refinement
import AuditTransparency.Soroban.Raises

namespace AuditLedger

open Soroban
open Soroban.Call hiding hasPers publish

variable {D : Type} [DecidableEq D] {H : Host D} {env : Env} {s s' : State D} {op : Op D} {r : Ret D}

/-! ## What the guard rejects -/

section
variable {a : Address} {t : Symbol} {m : Bytes}

-- the checks after the guard have errors of their own

theorem not_raises_checkAdmission :
    ¬Raises (checkAdmission a : Fn D Unit) .reentrancyDetected env s := by
  simp [checkAdmission]

theorem not_raises_readRuntimeState :
    ¬Raises (readRuntimeState : Fn D RuntimeState) .reentrancyDetected env s := by
  simp [readRuntimeState]

theorem not_raises_chargeRate : ¬Raises (chargeRate a : Fn D Unit) .reentrancyDetected env s := by
  simp [chargeRate]

theorem not_raises_checkMetadata :
    ¬Raises (checkMetadata t m : Fn D Unit) .reentrancyDetected env s := by
  simp [checkMetadata, effectiveMetadataMaxSize, validateMetadataAgainstSchema]

theorem not_raises_checkCap :
    ¬Raises (checkCap t : Fn D (Option ℕ)) .reentrancyDetected env s := by
  simp [checkCap, eventTypeCount]

theorem not_raises_searchDuplicate {force : Bool} {policy : DedupPolicy} :
    ¬Raises (searchDuplicate H force policy t a m) .reentrancyDetected env s := by
  rcases policy <;> simp [searchDuplicate, findDuplicate, pendingCustomKey]

theorem not_raises_recordDedup {policy : DedupPolicy} {index timestamp : ℕ} :
    ¬Raises (recordDedup H policy t a m index timestamp) .reentrancyDetected env s := by
  rcases policy <;> simp [recordDedup, pendingCustomKey]

theorem not_raises_indexSingle {index : ℕ} {n : Option ℕ} :
    ¬Raises (indexSingle t a index n : Fn D Unit) .reentrancyDetected env s := by
  simp [indexSingle, pushTypeIndex, pushSubmitterIndex, submitterCount, eventTypeCount]

theorem not_raises_appendSingle {c e : Option Symbol} {cfg : Config} {policy : DedupPolicy}
    {n : Option ℕ} :
    ¬Raises (appendSingle H a t m c e cfg policy n) .reentrancyDetected env s := by
  simp [appendSingle, prevLink, checkDrift, buildEvent, currentContractVersion, placeEvent,
    not_raises_recordDedup, not_raises_indexSingle, effectiveLowCostMode, syncTotalEvents, emitLogged,
    effectiveEventEmissionMode]

/-- The single path is rejected for reentrancy when the guard is set. -/
theorem not_raises_logEventWithHierarchy {c e : Option Symbol} {force : Bool}
    (h : s.temporary .logEventReentrancyGuard () = none) :
    ¬Raises (logEventWithHierarchy H a t m c e force) .reentrancyDetected env s := by
  have hinit : ¬Raises (requireInitialized : Fn D Unit) .reentrancyDetected env s := by
    simp [requireInitialized]
  have hrole : ¬Raises (requireRoleMin a .submitter : Fn D Unit) .reentrancyDetected env s := by
    simp [requireRoleMin, rbacEnabled, getRoleOf]
  unfold logEventWithHierarchy
  refine not_raises_bind_reads hinit fun _ _ => not_raises_bind_reads raises_requireAuth fun _ _ =>
    not_raises_bind_reads hrole fun _ _ => ?_
  rw [raises_bind, not_or]
  constructor
  · unfold enterGuard
    refine not_raises_bind_reads raises_loadTemp fun guard hguard => ?_
    obtain rfl : s.temporary .logEventReentrancyGuard () = guard := by cases hguard; rfl
    simp [h]
  · simp [validateEventType, not_raises_checkAdmission, not_raises_readRuntimeState,
      not_raises_chargeRate, not_raises_checkMetadata, not_raises_checkCap, effectiveDedupPolicy,
      not_raises_searchDuplicate, not_raises_appendSingle]

/-- No entry point over the single path is rejected for reentrancy without the guard. -/
theorem not_raises_single {x : Submission} (hx : op.submission = some x)
    (h : s.temporary .logEventReentrancyGuard () = none) :
    ¬Raises (exec H op) .reentrancyDetected env s := by
  cases op <;> simp only [Op.submission, reduceCtorEq] at hx
  all_goals simp only [exec, raises_bind, raises_pure, and_false, exists_false, or_false]
  case logEvent => exact not_raises_logEventWithHierarchy h
  case logEventWithNonce =>
    have hstate : ∀ a, ¬Raises (submitterNonceState H a) .reentrancyDetected env s := fun a => by
      simp [submitterNonceState, defaultNonceWindowSize, defaultNonceMaxValue]
    unfold logEventWithNonce
    refine not_raises_bind_reads (hstate _) fun _ _ => not_raises_bind_reads raises_load fun _ _ => ?_
    refine not_raises_bind_reads (by simp) fun _ _ => not_raises_bind_reads (by simp) fun _ _ =>
      not_raises_bind_reads (by simp) fun _ _ => ?_
    simp [not_raises_logEventWithHierarchy h]
  case logEventSigned =>
    unfold logEventSigned
    refine not_raises_bind_reads (by simp) fun _ _ => ?_
    simp [not_raises_logEventWithHierarchy h]
  case logEventWithCustomKey a t m c e f key =>
    unfold logEventWithCustomKey
    have hset : ∀ b s₁, (ifSome key fun key => setTemp .pendingCustomDedupKey () key : Fn D Unit).run
        env s = .ok (b, s₁) → ¬Raises (logEventWithHierarchy H a t m c e f) .reentrancyDetected env s₁ := by
      intro b s₁ hrun
      have hf := Writes.of_run (W := [DataKey.pendingCustomDedupKey]) inferInstance hrun
      exact not_raises_logEventWithHierarchy (by rw [hf.temporary (by simp)]; exact h)
    simpa using hset
  case logOperationalAction a t m =>
    have hrec : ¬Raises (isAddrOpsRecorder a : Fn D Bool) .reentrancyDetected env s := by
      simp [isAddrOpsRecorder, isAddrOwner, getOwners]
    unfold logOperationalAction
    refine not_raises_bind_reads (by simp [requireInitialized]) fun _ _ =>
      not_raises_bind_reads hrec fun _ _ => not_raises_bind_reads (by simp) fun _ _ => ?_
    exact not_raises_logEventWithHierarchy h

end

/-! ## Steps -/

/-- Neither the guard nor a custom key is in temporary storage. -/
structure Unguarded (s : State D) : Prop where
  guard : s.temporary .logEventReentrancyGuard () = none
  pending : s.temporary .pendingCustomDedupKey () = none

/-- The call goes through the single path and finds a duplicate. -/
def Op.duplicates (H : Host D) (env : Env) (s : State D) (op : Op D) : Bool :=
  match op.submission with
  | some x => (duplicateOf H env (op.enter s) x).isSome
  | none => false

theorem step_unguarded (h : Unguarded s) (hs : Step H env op s r s') :
    Unguarded s' ↔ op.duplicates H env s = false := by
  rcases hx : op.submission with _ | x
  · -- no other entry point writes temporary storage
    have hf := (exec_writes H op).of_run hs
    have hkeys : DataKey.logEventReentrancyGuard ∉ op.writes ∧
        DataKey.pendingCustomDedupKey ∉ op.writes := by
      cases op <;> simp [Op.submission] at hx ⊢
    refine iff_of_true ⟨?_, ?_⟩ (by simp [Op.duplicates, hx])
    · rw [hf.temporary hkeys.1]; exact h.guard
    · rw [hf.temporary hkeys.2]; exact h.pending
  · obtain ⟨id, s₁, hsub, -, hf, htemp⟩ := step_submitted hx hs
    have hguard : s'.temporary .logEventReentrancyGuard () =
        s₁.temporary .logEventReentrancyGuard () := by rw [hf.temporary (by simp)]
    simp only [Op.duplicates, hx]
    rcases hsub.outcome with ⟨k, hk, -, hset, -⟩ | ⟨hk, i, q, -, hst⟩
    · rw [hk]
      refine iff_of_false (fun h' => ?_) (by simp)
      rw [h'.guard, hset] at hguard
      cases hguard
    · rw [hk]
      refine iff_of_true ⟨hguard.trans hst.guard, ?_⟩ rfl
      rcases htemp with ⟨-, htemp⟩ | htemp
      · rw [htemp]; exact hst.pending
      · exact htemp

/-! ## Runs -/

/-- The step finds a duplicate. -/
def Action.duplicates (H : Host D) (s : State D) : Action D → Bool
  | .call env op => op.duplicates H env s
  | _ => false

theorem Unguarded.delTemp (h : Unguarded s) (f : DataKey) (k : f.Key D) : Unguarded (s.delTemp f k) :=
  ⟨Store.remove_eq_none (L := layout D) h.guard f k,
    Store.remove_eq_none (L := layout D) h.pending f k⟩

theorem next_unguarded {a : Action D} (h : Unguarded s) (hn : Next H s a s') :
    Unguarded s' ↔ a.duplicates H s = false := by
  cases a with
  | call env op =>
    obtain ⟨r, hs⟩ := hn
    exact step_unguarded h hs
  | expireTemporary f k => rw [Next] at hn; exact iff_of_true (hn ▸ h.delTemp f k) rfl
  | expirePersistent f k => rw [Next] at hn; exact iff_of_true (hn ▸ ⟨h.guard, h.pending⟩) rfl

/-- The guard is gone, and no call of the single path is rejected because of it. -/
structure Reenterable (H : Host D) (s : State D) : Prop where
  unguarded : Unguarded s
  accepted : ∀ env op x, op.submission = some x →
    (exec H op).run env s ≠ .error (.contract .reentrancyDetected)

theorem reenterable_iff : Reenterable H s ↔ Unguarded s :=
  ⟨fun h => h.unguarded, fun h => ⟨h, fun _ _ _ hx => not_raises_single hx h.guard⟩⟩

/-- **The guard outlives no call of a run exactly when no call finds a duplicate.** -/
theorem history_reenterable {tr : List (State D × Action D)} (h : History H tr s) :
    ((∀ p ∈ tr, Reenterable H p.1) ∧ Reenterable H s) ↔ ∀ p ∈ tr, p.2.duplicates H p.1 = false := by
  obtain ⟨s₀, h₀, hrun⟩ := h
  obtain ⟨g, m, hinit⟩ := initialized_of_init h₀
  simp only [reenterable_iff]
  induction hrun with
  | init =>
    have : Unguarded s₀ := ⟨(hinit.absent (f := .logEventReentrancyGuard) (by simp) ()).2,
      (hinit.absent (f := .pendingCustomDedupKey) (by simp) ()).2⟩
    simp [this]
  | @snoc tr s s' a _ hn ih =>
    simp only [List.forall_mem_append, List.forall_mem_singleton, ← ih]
    refine ⟨fun ⟨⟨htr, hc⟩, hc'⟩ => ⟨⟨htr, hc⟩, (next_unguarded hc hn).1 hc'⟩,
      fun ⟨⟨htr, hc⟩, hdup⟩ => ⟨⟨htr, hc⟩, (next_unguarded hc hn).2 hdup⟩⟩

/-- Different contents, one of them under a custom key. -/
def freshScript : List (Env × Op Bytes) :=
  [(openEnv 11, .logEvent (account 66) "a" [1] none none false),
    (openEnv 12, .setDedupPolicy (account 65) .custom),
    (openEnv 13, .logEventWithCustomKey (account 66) "a" [1] none none false (some [9])),
    (openEnv 14, .logEvents [(account 66, "a", [2])])]

theorem history_reenterable_freshScript : ∃ tr s, History plainHost tr s ∧ tr.length = 4 ∧
    Reenterable plainHost s := by
  let s₀ : State Bytes := deployed (openEnv 10) (account 65) 100 50
  obtain ⟨s, hs⟩ : ∃ s, play plainHost s₀ freshScript = some s :=
    Option.isSome_iff_exists.1 (by decide +kernel)
  have hdup : (traceOf plainHost s₀ freshScript).all
      (fun p => p.2.duplicates plainHost p.1 = false) = true := by decide +kernel
  have hist := history_of_play (init_deployed rfl 100 50) hs
  refine ⟨_, s, hist, by decide +kernel, ((history_reenterable hist).2 fun p hp => ?_).2⟩
  exact of_decide_eq_true (List.all_eq_true.1 hdup p hp)

/-- The same content twice. -/
def repeatScript : List (Env × Op Bytes) :=
  [(openEnv 11, .logEvent (account 66) "a" [1] none none false),
    (openEnv 12, .logEvent (account 66) "a" [1] none none false)]

/-- After a duplicate the guard is left, and the next call is rejected. -/
theorem guard_outlives_duplicate : ∃ s, Reachable plainHost s ∧
    s.temporary .logEventReentrancyGuard () = some true ∧
    (exec plainHost (.logEvent (account 66) "a" [2] none none false)).run (openEnv 13) s =
      .error (.contract .reentrancyDetected) := by
  let s₀ : State Bytes := deployed (openEnv 10) (account 65) 100 50
  obtain ⟨s, hs⟩ : ∃ s, play plainHost s₀ repeatScript = some s :=
    Option.isSome_iff_exists.1 (by decide)
  let after (s : State Bytes) : Option Bool × Option (Trap ContractError) :=
    (s.temporary .logEventReentrancyGuard (),
      match (exec plainHost (.logEvent (account 66) "a" [2] none none false)).run (openEnv 13) s with
      | .ok _ => none
      | .error e => some e)
  have hafter : (play plainHost s₀ repeatScript).map after =
      some (some true, some (.contract .reentrancyDetected)) := by decide
  rw [hs] at hafter
  simp only [after, Option.map_some, Option.some.injEq, Prod.mk.injEq] at hafter
  refine ⟨s, ⟨_, history_of_play (init_deployed rfl 100 50) hs⟩, hafter.1, ?_⟩
  have hrun := hafter.2
  split at hrun
  · cases hrun
  · next e he => rw [he, Option.some.inj hrun]

end AuditLedger
