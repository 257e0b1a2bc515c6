/-
  AuditLedger — erasure, its records, and legal holds.

  Two paths empty the metadata of an event and record the digest of what was there:
  an approved `process_erasure_request` and `run_retention_sweep`.  Metadata also
  changes through `update_event` and `rollback_event`, called directly or enacted.
  `Op.erases` and `Op.rewrites` keep the two apart.

  * `next_erasureRecord`: a step writes the records of the positions it erases, and
    no others; such a position is neither operational nor under a legal hold;
  * `history_digest`: the recorded digest stays what it was after an erasure exactly
    when no later one meets other metadata;
  * `history_held`: while a hold is active the record is preserved exactly when no
    step rewrites the metadata.
-/
import AuditTransparency.Ledger.Refinement

namespace AuditLedger

open Soroban
open Soroban.Call hiding hasPers publish

variable {D : Type} [DecidableEq D] {H : Host D} {env : Env} {s s' : State D} {op : Op D} {r : Ret D}
  {R : List Record} {act : Action D} {i : ℕ} {m : Bytes}

/-! ## Erasing and rewriting -/

/-- The positions a call erases. -/
def Op.erases (env : Env) (s : State D) (op : Op D) : List ℕ :=
  match op with
  | .processErasureRequest .. | .runRetentionSweep .. => (op.amends env s).map Prod.fst
  | _ => []

/-- The metadata a call changes otherwise. -/
def Op.rewrites (env : Env) (s : State D) (op : Op D) : List (ℕ × Bytes) :=
  match op with
  | .processErasureRequest .. | .runRetentionSweep .. => []
  | _ => op.amends env s

/-- The positions a step erases. -/
def Action.erases (s : State D) : Action D → List ℕ
  | .call env op => op.erases env s
  | _ => []

/-- The metadata a step changes otherwise. -/
def Action.rewrites (s : State D) : Action D → List (ℕ × Bytes)
  | .call env op => op.rewrites env s
  | _ => []

/-- The metadata of the event at `i`. -/
def metadataAt (s : State D) (i : ℕ) : Option Bytes := (eventAt s i).map (·.metadata)

/-- A call rewrites one event at most. -/
theorem rewrites_cases (env : Env) (s : State D) (op : Op D) :
    op.rewrites env s = [] ∨ ∃ k m, op.rewrites env s = [(k, m)] := by
  have hroll : ∀ k v, rollbackAmends s k v = [] ∨ ∃ j m, rollbackAmends s k v = [(j, m)] := by
    intro k v
    rw [rollbackAmends]
    rcases (historyOf s k)[v]? with _ | u
    · exact Or.inl rfl
    · exact Or.inr ⟨_, _, rfl⟩
  cases op with
  | updateEvent a k m => exact Or.inr ⟨k, m, rfl⟩
  | rollbackEvent a k v => exact hroll k v
  | executeProposal a id =>
    simp only [Op.rewrites, Op.amends]
    rcases enacted s env.timestamp id with _ | action
    · exact Or.inl rfl
    · cases action with
      | rollbackEvent k v => exact hroll k v
      | _ => exact Or.inl rfl
  | _ => exact Or.inl rfl

/-- A call that erases does not rewrite, and one that does not erase only rewrites. -/
theorem amends_of_not_erases (hi : i ∉ op.erases env s) :
    ∀ m', (i, m') ∈ op.amends env s ↔ (i, m') ∈ op.rewrites env s := by
  intro m'
  cases op with
  | processErasureRequest | runRetentionSweep =>
    simp only [Op.erases, Op.rewrites] at hi ⊢
    exact iff_of_false (fun h => hi (List.mem_map_of_mem h)) (by simp)
  | _ => exact Iff.rfl

theorem amends_of_rewrites (h : op.rewrites env s ≠ []) : op.amends env s = op.rewrites env s := by
  cases op with
  | processErasureRequest | runRetentionSweep => exact absurd rfl h
  | _ => rfl

/-- What an expired event is not. -/
theorem of_expired {now : ℕ} (h : expired s now i = true) :
    (∃ e, eventAt s i = some e ∧ e.category ≠ operationalCategory) ∧ heldAt s i = false := by
  unfold expired at h
  rcases he : eventAt s i with _ | e
  · rw [he] at h; cases h
  · rw [he] at h
    simp only [decide_eq_true_eq, not_or] at h
    obtain ⟨hcat, -, -, -, hheld, -⟩ := h
    exact ⟨⟨e, rfl, hcat⟩, by simpa [heldAt] using hheld⟩

/-- **What a call erases**: an event that is neither operational nor under a legal hold, and
    whose erasure it records.  It writes no other erasure record. -/
theorem step_erasureRecord (hinj : Function.Injective H.sha256) (h : HasLog H s R)
    (hs : Step H env op s r s') (i : ℕ) :
    (i ∈ op.erases env s → (∃ e, eventAt s i = some e ∧ e.category ≠ operationalCategory) ∧
      heldAt s i = false ∧ Recorded H s i (s'.inst .erasureRecord i)) ∧
    (i ∉ op.erases env s → s'.inst .erasureRecord i = s.inst .erasureRecord i) := by
  cases op with
  | processErasureRequest a id approve j =>
    obtain ⟨_, hrun, -⟩ := of_run_map env s hs
    obtain ⟨q, hq, hyes, hno⟩ := (post_processErasureRequest hinj h).of_run hrun
    cases approve with
    | true =>
      obtain ⟨-, hcat, hheld, hrec, hother⟩ := hyes rfl
      have hl : Op.erases env s (.processErasureRequest a id true j) = [q.eventIndex] := by
        simp [Op.erases, Op.amends, hq]
      rw [hl, List.mem_singleton]
      constructor
      · rintro rfl
        exact ⟨hcat, hheld, hrec⟩
      · exact hother i
    | false =>
      refine ⟨fun hi => ?_, fun _ => congrFun (hno rfl).2 i⟩
      simp [Op.erases, Op.amends] at hi
  | runRetentionSweep a first n =>
    obtain ⟨_, hrun, -⟩ := of_run_map env s hs
    obtain ⟨-, hall⟩ := (post_runRetentionSweep hinj h rfl).of_run hrun
    refine ⟨fun hi => ?_, (hall i).2⟩
    have hexp : expired s env.timestamp i = true := by
      simp only [Op.erases, Op.amends, sweepAmends, List.map_map, List.mem_map, List.mem_filter] at hi
      obtain ⟨j, ⟨-, hj⟩, rfl⟩ := hi
      exact hj
    exact ⟨(of_expired hexp).1, (of_expired hexp).2, (hall i).1 hi⟩
  | _ =>
    refine ⟨fun hi => absurd hi (List.not_mem_nil), fun _ => congrFun ?_ i⟩
    exact ((exec_writes H _).of_run hs).inst (notMem_of_eval rfl)

/-- The same for a step. -/
theorem next_erasureRecord (hinj : Function.Injective H.sha256) (h : HasLog H s R)
    (hn : Next H s act s') (i : ℕ) :
    (i ∈ act.erases s → (∃ e, eventAt s i = some e ∧ e.category ≠ operationalCategory) ∧
      heldAt s i = false ∧ Recorded H s i (s'.inst .erasureRecord i)) ∧
    (i ∉ act.erases s → s'.inst .erasureRecord i = s.inst .erasureRecord i) := by
  cases act with
  | call env op =>
    obtain ⟨r, hs⟩ := hn
    exact step_erasureRecord hinj h hs i
  | expireTemporary f k | expirePersistent f k =>
    rw [Next] at hn; subst hn
    exact ⟨fun hi => absurd hi List.not_mem_nil, fun _ => rfl⟩

/-- A record that is not erased changes only when it is rewritten. -/
theorem next_record (hinj : Function.Injective H.sha256) (h : HasLog H s R) (hn : Next H s act s')
    {q : Record} (hq : R[i]? = some q) (hi : i ∉ act.erases s) :
    ∃ m, (eventAt s' i).map Event.record = some { q with metadata := m } ∧
      (m = q.metadata ↔ ∀ m', (i, m') ∈ act.rewrites s → q.metadata = m') := by
  have hlog := (next_hasLog hinj h hn).eventAt i
  cases act with
  | call env op =>
    have hlen := (List.getElem?_eq_some_iff.1 hq).1
    have hlt : i < (amendAll R (op.amends env s)).length := by rw [length_amendAll]; exact hlen
    rw [Action.logAfter, List.getElem?_append_left hlt] at hlog
    rw [hlog]
    simp only [Action.rewrites, Action.erases] at hi ⊢
    by_cases hrw : ∀ m', (i, m') ∈ op.rewrites env s → q.metadata = m'
    · refine ⟨q.metadata, getElem?_amendAll hq fun p hp hpi => ?_, by simpa using hrw⟩
      obtain ⟨k, m'⟩ := p
      obtain rfl : k = i := hpi
      exact hrw m' ((amends_of_not_erases hi m').1 hp)
    · simp only [not_forall] at hrw
      obtain ⟨m', hm', hne⟩ := hrw
      obtain hnil | ⟨k, m'', hone⟩ := rewrites_cases env s op
      · rw [hnil] at hm'; cases hm'
      rw [hone, List.mem_singleton, Prod.mk.injEq] at hm'
      obtain ⟨rfl, rfl⟩ := hm'
      refine ⟨m', ?_, ?_⟩
      · rw [amends_of_rewrites (by simp [hone]), hone, amendAll, List.foldl_cons, List.foldl_nil,
          getElem?_amend, if_pos rfl, hq]
        rfl
      · rw [hone]
        refine iff_of_false (fun h => hne h.symm) fun h => hne (h m' (by simp))
  | expireTemporary f k | expirePersistent f k =>
    refine ⟨q.metadata, hlog.trans hq, ?_⟩
    simp [Action.rewrites]

/-- Every state on the way has a log. -/
theorem hasLog_next (hinj : Function.Injective H.sha256) (hn : Next H s act s')
    (h : ∃ R, HasLog H s R) : ∃ R, HasLog H s' R := by
  obtain ⟨R, hR⟩ := h
  exact ⟨_, next_hasLog hinj hR hn⟩

/-! ## The recorded digest -/

/-- `ErasureRecord(i).original_metadata_hash` -/
def digestAt (s : State D) (i : ℕ) : Option D := (s.inst .erasureRecord i).map (·.originalMetadataHash)

theorem Recorded.digest {o : Option (ErasureRecordData D)} (h : Recorded H s i o) :
    ∃ m, metadataAt s i = some m ∧ o.map (·.originalMetadataHash) = some (H.sha256 m) := by
  obtain ⟨e, rec, he, rfl, -, hd⟩ := h
  exact ⟨e.metadata, by rw [metadataAt, he]; rfl, by rw [Option.map_some, hd]⟩

/-- **The erasure record keeps the digest exactly when no later erasure meets other metadata.**
    From a step that erases the event at `i`, the first in particular, in every state. -/
theorem history_digest (hinj : Function.Injective H.sha256) {tr₁ tr₂ : List (State D × Action D)}
    {s₁ : State D} (h : History H (tr₁ ++ (s₁, act) :: tr₂) s) (herased : i ∈ act.erases s₁)
    (hm : metadataAt s₁ i = some m) :
    ((∀ p ∈ tr₂, digestAt p.1 i = some (H.sha256 m)) ∧ digestAt s i = some (H.sha256 m)) ↔
      ∀ p ∈ tr₂, i ∈ p.2.erases p.1 → metadataAt p.1 i = some m := by
  obtain ⟨s₀, h₀, hrun⟩ := h
  obtain ⟨s₂, hbefore, hstep, hafter⟩ := hrun.split
  obtain ⟨R, hR⟩ := hasLog_of_history hinj ⟨s₀, h₀, hbefore⟩
  refine hafter.always_iff (C := fun s act => i ∈ act.erases s → metadataAt s i = some m)
    (P := fun _ _ => True) (I := fun s => digestAt s i = some (H.sha256 m))
    (J := fun s => ∃ R, HasLog H s R) ⟨_, next_hasLog hinj hR hstep⟩
    (fun s act s' hn hlog => hasLog_next hinj hn hlog) ?_ ?_ fun _ _ => trivial
  · obtain ⟨m', hm', hd⟩ := ((next_erasureRecord hinj hR hstep i).1 herased).2.2.digest
    rw [hm, Option.some.injEq] at hm'
    rw [digestAt, hd, hm']
  · rintro s act s' - hn ⟨R, hR⟩ hd
    by_cases hi : i ∈ act.erases s
    · obtain ⟨m', hm', hd'⟩ := ((next_erasureRecord hinj hR hn i).1 hi).2.2.digest
      simp only [digestAt, hd', hm', hi, forall_true_left, Option.some.injEq]
      exact hinj.eq_iff
    · have hsame : digestAt s' i = digestAt s i := by
        rw [digestAt, (next_erasureRecord hinj hR hn i).2 hi, digestAt]
      rw [hsame]
      exact iff_of_true hd fun h => absurd h hi

/-- An event, and a request to erase it. -/
def requestScript : List (Env × Op Bytes) :=
  [(openEnv 11, .logEvent (account 66) "a" [1] none none false),
    (openEnv 12, .requestErasure (account 66) 0 "gdpr")]

/-- What follows the erasure. -/
def sweepScript : List (Env × Op Bytes) :=
  [(openEnv 14, .setDefaultRetentionDays (account 65) 1),
    (openEnv 200000, .runRetentionSweep (account 65) 0 10)]

/-- The decision on the first request. -/
def approval : Env × Op Bytes := (openEnv 13, .processErasureRequest (account 65) 0 true [])

theorem history_digest_requestScript : ∃ s, Reachable plainHost s ∧
    metadataAt s 0 = some [] ∧ digestAt s 0 = some (plainHost.sha256 [1]) := by
  let s₀ : State Bytes := deployed (openEnv 10) (account 65) 100 50
  obtain ⟨s, hs⟩ : ∃ s, play plainHost s₀ (requestScript ++ approval :: sweepScript) = some s :=
    Option.isSome_iff_exists.1 (by decide +kernel)
  obtain ⟨s₁, r, s₂, hpre, hstep, hpost, hist⟩ := history_around (init_deployed rfl 100 50) hs
  have before : (play plainHost s₀ requestScript).map (fun s =>
      (metadataAt s 0, Op.erases approval.1 s approval.2)) = some (some [1], [0]) := by decide +kernel
  have later : (play plainHost s₀ (requestScript ++ [approval])).map (fun s =>
      (traceOf plainHost s sweepScript).all fun p => 0 ∉ p.2.erases p.1) = some true := by decide +kernel
  have after : (play plainHost s₀ (requestScript ++ approval :: sweepScript)).map (metadataAt · 0) =
      some (some []) := by decide +kernel
  have hmid : play plainHost s₀ (requestScript ++ [approval]) = some s₂ := play_snoc hpre hstep
  rw [hpre] at before
  rw [hmid] at later
  rw [hs] at after
  simp only [Option.map_some, Option.some.injEq, Prod.mk.injEq] at before later after
  refine ⟨s, ⟨_, hist⟩, after, ((history_digest Function.injective_id hist ?_ before.1).2 ?_).2⟩
  · have herases : (Action.call approval.1 approval.2).erases s₁ = [0] := before.2
    exact herases ▸ List.mem_singleton_self 0
  · intro p hp hi
    exact absurd hi (of_decide_eq_true (List.all_eq_true.1 later p hp))

/-- A second request for the same event. -/
def requestedTwiceScript : List (Env × Op Bytes) :=
  requestScript ++ [(openEnv 12, .requestErasure (account 66) 0 "gdpr")]

/-- The decision on the second request. -/
def secondApproval : Env × Op Bytes := (openEnv 14, .processErasureRequest (account 65) 1 true [])

/-- The second erasure records the digest of the empty metadata the first has left. -/
theorem digest_overwritten : ∃ tr₁ s₁ tr₂ s,
    History plainHost (tr₁ ++ (s₁, .call approval.1 approval.2) :: tr₂) s ∧
    s₁.inst .erasureRecord 0 = none ∧ metadataAt s₁ 0 = some [1] ∧
    0 ∈ (Action.call approval.1 approval.2).erases s₁ ∧
    digestAt s 0 = some (plainHost.sha256 []) ∧ digestAt s 0 ≠ some (plainHost.sha256 [1]) := by
  let s₀ : State Bytes := deployed (openEnv 10) (account 65) 100 50
  obtain ⟨s, hs⟩ : ∃ s, play plainHost s₀ (requestedTwiceScript ++ approval :: [secondApproval]) = some s :=
    Option.isSome_iff_exists.1 (by decide +kernel)
  obtain ⟨s₁, r, s₂, hpre, -, -, hist⟩ := history_around (init_deployed rfl 100 50) hs
  have before : (play plainHost s₀ requestedTwiceScript).map (fun s =>
      (s.inst .erasureRecord 0, metadataAt s 0, Op.erases approval.1 s approval.2)) =
      some (none, some [1], [0]) := by decide +kernel
  have after : (play plainHost s₀ (requestedTwiceScript ++ approval :: [secondApproval])).map
      (digestAt · 0) = some (some (plainHost.sha256 [])) := by decide +kernel
  rw [hpre] at before
  rw [hs] at after
  simp only [Option.map_some, Option.some.injEq, Prod.mk.injEq] at before after
  obtain ⟨hnone, hmeta, herases⟩ := before
  refine ⟨_, s₁, _, s, hist, hnone, hmeta, ?_, after, ?_⟩
  · have hpos : (Action.call approval.1 approval.2).erases s₁ = [0] := herases
    exact hpos ▸ List.mem_singleton_self 0
  · rw [after]; decide

/-! ## Legal holds -/

/-- **The record at `i` is as it was in `s₁`**: what `get_event_by_order` returns for the metadata,
    and the erasure record. -/
structure Preserved (s₁ s : State D) (i : ℕ) : Prop where
  metadata : ∀ env, ((getEventByOrder i : Fn D (Event D)).run env s).map (·.1.metadata) =
    ((getEventByOrder i : Fn D (Event D)).run env s₁).map (·.1.metadata)
  record : s.inst .erasureRecord i = s₁.inst .erasureRecord i

theorem HasLog.getEventByOrder_metadata (h : HasLog H s R) (env : Env) (hm : metadataAt s i = some m) :
    ((getEventByOrder i : Fn D (Event D)).run env s).map (·.1.metadata) = .ok m := by
  obtain ⟨L, h, -⟩ := h
  obtain ⟨e, he, rfl⟩ := Option.map_eq_some_iff.1 hm
  rw [h.holds.eventAt_eq] at he
  obtain ⟨p, hp, rfl⟩ := Option.map_eq_some_iff.1 he
  rw [getEventByOrder, run_bind_ok _ _ h.requireInitialized_run, h.fetch_run hp]
  rfl

/-- The step does not rewrite the metadata of the event at `i`, unless with what it is. -/
def Action.spares (s : State D) (i : ℕ) (act : Action D) : Prop :=
  ∀ m, (i, m) ∈ act.rewrites s → metadataAt s i = some m

instance (s : State D) (i : ℕ) (act : Action D) : Decidable (act.spares s i) :=
  decidable_of_iff (∀ p ∈ act.rewrites s, p.1 = i → metadataAt s i = some p.2) <| by
    constructor
    · intro h m hm
      exact h (i, m) hm rfl
    · rintro h ⟨k, m⟩ hp rfl
      exact h m hp

/-- The position of an event has metadata. -/
theorem HasLog.metadataAt (h : HasLog H s R) (i : ℕ) :
    AuditLedger.metadataAt s i = R[i]?.map (·.metadata) := by
  rw [← h.eventAt, AuditLedger.metadataAt, Option.map_map]
  rfl

/-- The metadata of an event that is not erased changes only when it is rewritten. -/
theorem next_metadataAt (hinj : Function.Injective H.sha256) (h : HasLog H s R) (hn : Next H s act s')
    (hm : metadataAt s i = some m) (hi : i ∉ act.erases s) :
    metadataAt s' i = some m ↔ act.spares s i := by
  rw [h.metadataAt] at hm
  obtain ⟨q, hq, rfl⟩ := Option.map_eq_some_iff.1 hm
  obtain ⟨m', hm', hiff⟩ := next_record hinj h hn hq hi
  have hafter : metadataAt s' i = some m' := by
    have := congrArg (Option.map Record.metadata) hm'
    rwa [Option.map_map] at this
  simp only [Action.spares, hafter, h.metadataAt, hq, Option.map_some, Option.some.injEq]
  exact hiff

theorem held_of_placeLegalHold {a : Address} {reason : Bytes} (h : HasLog H s R)
    (hs : Step H env (.placeLegalHold a i reason) s r s') : ∃ m, metadataAt s i = some m := by
  obtain ⟨L, hL, hR⟩ := id h
  have key : Post (exec H (.placeLegalHold a i reason)) (fun _ _ => i < L.length) env s := by
    simp only [exec, placeLegalHold, post_bind, post_pure, post_rejectIf, post_getEnv, post_store,
      post_publish]
    refine post_reads fun _ _ _ => (post_of_run hL.totalEvents_run).2 fun hlt => ?_
    exact not_le.1 hlt
  have hi : i < R.length := by rw [← hR, records, List.length_map]; exact key.of_run hs
  exact ⟨_, by rw [h.metadataAt, List.getElem?_eq_getElem hi]; rfl⟩

/-- **A legal hold protects the record exactly when no step rewrites the metadata.**  From
    `place_legal_hold` on, as long as the hold is active. -/
theorem history_held (hinj : Function.Injective H.sha256) {tr₁ tr₂ : List (State D × Action D)}
    {s₁ : State D} {a : Address} {reason : Bytes}
    (h : History H (tr₁ ++ (s₁, .call env (.placeLegalHold a i reason)) :: tr₂) s)
    (hheld : ∀ p ∈ tr₂, heldAt p.1 i = true) :
    ((∀ p ∈ tr₂, Preserved s₁ p.1 i) ∧ Preserved s₁ s i) ↔ ∀ p ∈ tr₂, p.2.spares p.1 i := by
  obtain ⟨s₀, h₀, hrun⟩ := h
  obtain ⟨s₂, hbefore, hstep, hafter⟩ := hrun.split
  obtain ⟨R, hR⟩ := hasLog_of_history hinj ⟨s₀, h₀, hbefore⟩
  have hlogs : (∀ p ∈ tr₂, ∃ R, HasLog H p.1 R) ∧ ∃ R, HasLog H s R :=
    hafter.always (C := fun _ _ => True) (I := fun s => ∃ R, HasLog H s R)
      ⟨_, next_hasLog hinj hR hstep⟩ (fun s act s' _ hn hlog => hasLog_next hinj hn hlog)
      fun _ _ => trivial
  obtain ⟨r, hplace⟩ := id hstep
  obtain ⟨m, hm⟩ := held_of_placeLegalHold hR hplace
  -- what is preserved, read from storage
  have hpreserved : ∀ t, (∃ R, HasLog H t R) → (Preserved s₁ t i ↔
      metadataAt t i = some m ∧ t.inst .erasureRecord i = s₁.inst .erasureRecord i) := by
    rintro t ⟨R', hR'⟩
    constructor
    · rintro ⟨hmeta, hrec⟩
      refine ⟨?_, hrec⟩
      have hread := hmeta env
      rw [hR.getEventByOrder_metadata env hm] at hread
      rcases hget : (getEventByOrder i : Fn D (Event D)).run env t with err | ⟨e, t'⟩
      · rw [hget] at hread; cases hread
      · have he : eventAt t i = some e :=
          (post_getEventByOrder (Q := fun e _ => eventAt t i = some e) fun _ he => he).of_run hget
        rw [hget] at hread
        cases hread
        rw [metadataAt, he]
        rfl
    · rintro ⟨hmeta, hrec⟩
      refine ⟨fun env => ?_, hrec⟩
      rw [hR.getEventByOrder_metadata env hm, hR'.getEventByOrder_metadata env hmeta]
  rw [hpreserved s hlogs.2, forall₂_congr fun p hp => hpreserved p.1 (hlogs.1 p hp)]
  refine hafter.always_iff (C := fun s act => act.spares s i) (P := fun s _ => heldAt s i = true)
    (I := fun t => metadataAt t i = some m ∧ t.inst .erasureRecord i = s₁.inst .erasureRecord i)
    (J := fun s => ∃ R, HasLog H s R) ⟨_, next_hasLog hinj hR hstep⟩
    (fun s act s' hn hlog => hasLog_next hinj hn hlog) ?_ ?_ hheld
  · -- placing the hold changes nothing else
    have hf := (exec_writes H _).of_run hplace
    rw [metadataAt, eventAt, hf.inst (f := DataKey.eventOrder) (by simp),
      hf.inst (f := DataKey.eventData) (by simp), hf.inst (f := DataKey.erasureRecord) (by simp)]
    exact ⟨hm, rfl⟩
  · rintro s act s' hhold hn ⟨R, hR⟩ ⟨hmeta, hrec⟩
    have hkept : i ∉ act.erases s := by
      intro hi
      have hfree := ((next_erasureRecord hinj hR hn i).1 hi).2.1
      rw [hhold] at hfree
      cases hfree
    rw [(next_erasureRecord hinj hR hn i).2 hkept, hrec, ← next_metadataAt hinj hR hn hmeta hkept]
    simp

/-- An event to place a hold on. -/
def evidenceScript : List (Env × Op Bytes) :=
  [(openEnv 11, .logEvent (account 66) "a" [1] none none false)]

/-- The hold on it. -/
def holdCall : Env × Op Bytes := (openEnv 12, .placeLegalHold (account 65) 0 [9])

theorem history_held_evidenceScript : ∃ s₁ s, Reachable plainHost s ∧ metadataAt s₁ 0 = some [1] ∧
    heldAt s 0 = true ∧ Preserved s₁ s 0 := by
  let s₀ : State Bytes := deployed (openEnv 10) (account 65) 100 50
  obtain ⟨s, hs⟩ : ∃ s, play plainHost s₀ (evidenceScript ++ holdCall :: sweepScript) = some s :=
    Option.isSome_iff_exists.1 (by decide +kernel)
  obtain ⟨s₁, r, s₂, hpre, hstep, hpost, hist⟩ := history_around (init_deployed rfl 100 50) hs
  have hmid : play plainHost s₀ (evidenceScript ++ [holdCall]) = some s₂ := play_snoc hpre hstep
  have before : (play plainHost s₀ evidenceScript).map (metadataAt · 0) = some (some [1]) := by
    decide +kernel
  have later : (play plainHost s₀ (evidenceScript ++ [holdCall])).map (fun s =>
      (traceOf plainHost s sweepScript).all fun p => heldAt p.1 0 = true ∧ p.2.spares p.1 0) =
      some true := by decide +kernel
  have after : (play plainHost s₀ (evidenceScript ++ holdCall :: sweepScript)).map (heldAt · 0) =
      some true := by decide +kernel
  rw [hpre] at before
  rw [hmid] at later
  rw [hs] at after
  simp only [Option.map_some, Option.some.injEq] at before later after
  have hall : ∀ p ∈ traceOf plainHost s₂ sweepScript, heldAt p.1 0 = true ∧ p.2.spares p.1 0 := by
    intro p hp
    exact of_decide_eq_true (List.all_eq_true.1 later p hp)
  refine ⟨s₁, s, ⟨_, hist⟩, before, after, ?_⟩
  exact ((history_held Function.injective_id hist fun p hp => (hall p hp).1).2 fun p hp =>
    (hall p hp).2).2

/-- An update of the event under the hold. -/
def updateCall : Env × Op Bytes := (openEnv 13, .updateEvent (account 65) 0 [])

/-- The metadata of an event under a legal hold is emptied by `update_event`. -/
theorem held_metadata_emptied : ∃ tr₁ s₁ tr₂ s,
    History plainHost (tr₁ ++ (s₁, .call holdCall.1 holdCall.2) :: tr₂) s ∧
    (∀ p ∈ tr₂, heldAt p.1 0 = true) ∧ heldAt s 0 = true ∧
    metadataAt s₁ 0 = some [1] ∧ metadataAt s 0 = some [] ∧ ¬Preserved s₁ s 0 := by
  let s₀ : State Bytes := deployed (openEnv 10) (account 65) 100 50
  obtain ⟨s, hs⟩ : ∃ s, play plainHost s₀ (evidenceScript ++ holdCall :: [updateCall]) = some s :=
    Option.isSome_iff_exists.1 (by decide +kernel)
  obtain ⟨s₁, r, s₂, hpre, hstep, hpost, hist⟩ := history_around (init_deployed rfl 100 50) hs
  have hmid : play plainHost s₀ (evidenceScript ++ [holdCall]) = some s₂ := play_snoc hpre hstep
  have before : (play plainHost s₀ evidenceScript).map (metadataAt · 0) = some (some [1]) := by
    decide +kernel
  have later : (play plainHost s₀ (evidenceScript ++ [holdCall])).map (fun s =>
      (traceOf plainHost s [updateCall]).all fun p => heldAt p.1 0) = some true := by decide +kernel
  have after : (play plainHost s₀ (evidenceScript ++ holdCall :: [updateCall])).map
      (fun s => (heldAt s 0, metadataAt s 0)) = some (true, some []) := by decide +kernel
  rw [hpre] at before
  rw [hmid] at later
  rw [hs] at after
  simp only [Option.map_some, Option.some.injEq, Prod.mk.injEq] at before later after
  refine ⟨_, s₁, _, s, hist, List.all_eq_true.1 later, after.1, before, after.2, fun hp => ?_⟩
  obtain ⟨R₁, hR₁⟩ := hasLog_of_history Function.injective_id
    (history_of_play (init_deployed rfl 100 50) hpre)
  obtain ⟨R, hR⟩ := hasLog_of_history Function.injective_id hist
  have hread := hp.metadata (openEnv 14)
  rw [hR₁.getEventByOrder_metadata _ before, hR.getEventByOrder_metadata _ after.2] at hread
  cases hread

end AuditLedger
