/-
  AuditLedger — the register of erasure requests.

  A request is filed by anybody and decided by whoever passes the check of the owner operations.
  The register is a function of the trace, and an event is erased when a request for it has been
  fulfilled or a sweep has found it expired.

  * `history_requests`: the requests are those filed, in order, each decided at most once;
  * `history_erased`: where the erasures come from.
-/
import AuditTransparency.Ledger.Erasure

namespace AuditLedger

open Soroban
open Soroban.Call hiding hasPers publish

variable {D : Type} [DecidableEq D] {H : Host D} {env : Env} {s s' : State D} {op : Op D} {r : Ret D}
  {act : Action D} {i id : ℕ} {tr : List (State D × Action D)}

/-! ## Filings and decisions -/

structure Decision where
  approve : Bool
  decidedBy : Address
  decidedAt : ℕ
  justification : Bytes
  deriving DecidableEq

/-- The request after a decision. -/
def ErasureRequestData.decided (q : ErasureRequestData) (d : Decision) : ErasureRequestData :=
  { q with
    status := if d.approve then .fulfilled else .denied
    decidedBy := some d.decidedBy
    decidedAt := d.decidedAt
    justification := d.justification }

/-- The request a step files. -/
def Action.filing : Action D → Option ErasureRequestData
  | .call env (.requestErasure a i reason) => some ⟨a, i, reason, env.timestamp, .pending, none, 0, []⟩
  | _ => none

/-- The decision of a step on a request. -/
def Action.decision (id : ℕ) : Action D → Option Decision
  | .call env (.processErasureRequest a k approve j) =>
    if k = id then some ⟨approve, a, env.timestamp, j⟩ else none
  | _ => none

def filings (tr : List (State D × Action D)) : List ErasureRequestData := tr.filterMap (·.2.filing)

def decisions (id : ℕ) (tr : List (State D × Action D)) : List Decision := tr.filterMap (·.2.decision id)

/-- The id of the next request. -/
def nextRequest (s : State D) : ℕ := (s.inst .erasureRequestCount ()).getD 0

/-! ## Effects -/

theorem post_requestErasure {a : Address} {reason : Symbol} : Post (requestErasure a i reason : Fn D ℕ)
    (fun k s' => k = nextRequest s ∧ nextRequest s' = nextRequest s + 1 ∧
      s'.inst .erasureRequest = Function.update (s.inst .erasureRequest) (nextRequest s)
        (some ⟨a, i, reason, env.timestamp, .pending, none, 0, []⟩)) env s := by
  simp only [requestErasure, isEventErased, post_bind, post_requireAuth, post_rejectIf, post_load,
    post_getEnv, post_store, post_addChecked, post_publish, post_pure]
  refine post_reads fun _ _ _ => post_getEventByOrder fun e _ _ _ _ => ⟨rfl, ?_, ?_⟩
  · simp [nextRequest]
  · simp [nextRequest]

theorem post_processErasureRequest_decided {a : Address} {approve : Bool} {j : Bytes} :
    Post (processErasureRequest H a id approve j)
      (fun _ s' => ∃ q, s.inst .erasureRequest id = some q ∧ q.status = .pending ∧
        s'.inst .erasureRequest = Function.update (s.inst .erasureRequest) id
          (some (q.decided ⟨approve, a, env.timestamp, j⟩))) env s := by
  simp only [processErasureRequest, isUnderLegalHold, post_bind, post_pure, post_load, post_unwrapOr,
    post_rejectIf, post_doIf, post_getEnv, post_store, post_publish]
  refine post_reads fun _ _ q hq hpending => ⟨fun hap => ?_, fun hap => ?_⟩
  · refine post_getEventByOrder fun e he hcat hheld => post_reads fun _ _ _ => ?_
    simp only [eraseMetadata, post_bind, post_getEnv, post_store]
    refine Post.with_frame (L := layout D) (W := rewriteWrites) fun _ s₁ _ hf => ?_
    refine ⟨q, hq, not_not.1 hpending, ?_⟩
    rw [← hf.inst (f := .erasureRequest) (by simp)]
    simp [ErasureRequestData.decided]
  · refine ⟨q, hq, not_not.1 hpending, ?_⟩
    simp [ErasureRequestData.decided]

/-! ## The register -/

/-- The register says what the trace does. -/
structure Registered (tr : List (State D × Action D)) (s : State D) : Prop where
  count : nextRequest s = (filings tr).length
  unfiled : ∀ id, (filings tr).length ≤ id → decisions id tr = []
  once : ∀ id, (decisions id tr).length ≤ 1
  requests : ∀ id, s.inst .erasureRequest id =
    (filings tr)[id]?.map fun q => (decisions id tr).foldl ErasureRequestData.decided q

theorem filings_concat : filings (tr ++ [(s, act)]) = filings tr ++ act.filing.toList := filterMap_concat

theorem decisions_concat : decisions id (tr ++ [(s, act)]) = decisions id tr ++ (act.decision id).toList :=
  filterMap_concat

theorem Registered.of_eq (h : Registered tr s) (hfiling : act.filing = none)
    (hdecision : ∀ id, act.decision id = none) (hr : s'.inst .erasureRequest = s.inst .erasureRequest)
    (hc : s'.inst .erasureRequestCount = s.inst .erasureRequestCount) :
    Registered (tr ++ [(s, act)]) s' := by
  have hfilings : filings (tr ++ [(s, act)]) = filings tr := by
    rw [filings_concat, hfiling, Option.toList_none, List.append_nil]
  have hdecisions : ∀ id, decisions id (tr ++ [(s, act)]) = decisions id tr := by
    intro id
    rw [decisions_concat, hdecision, Option.toList_none, List.append_nil]
  refine ⟨?_, fun id hid => ?_, fun id => ?_, fun id => ?_⟩
  · rw [hfilings, nextRequest, hc]
    exact h.count
  · rw [hfilings] at hid
    rw [hdecisions, h.unfiled id hid]
  · rw [hdecisions]
    exact h.once id
  · rw [hfilings, hdecisions, hr]
    exact h.requests id

/-- A request is filed. -/
theorem Registered.filed {q : ErasureRequestData} (h : Registered tr s) (hfiling : act.filing = some q)
    (hdecision : ∀ id, act.decision id = none) (hc : nextRequest s' = nextRequest s + 1)
    (hr : s'.inst .erasureRequest = Function.update (s.inst .erasureRequest) (nextRequest s) (some q)) :
    Registered (tr ++ [(s, act)]) s' := by
  have hfilings : filings (tr ++ [(s, act)]) = filings tr ++ [q] := by
    rw [filings_concat, hfiling, Option.toList_some]
  have hdecisions : ∀ id, decisions id (tr ++ [(s, act)]) = decisions id tr := by
    intro id
    rw [decisions_concat, hdecision, Option.toList_none, List.append_nil]
  have hlen : (filings tr ++ [q]).length = (filings tr).length + 1 := List.length_append
  refine ⟨?_, fun id hid => ?_, fun id => ?_, fun id => ?_⟩
  · rw [hfilings, hc, h.count, hlen]
  · rw [hfilings, hlen] at hid
    rw [hdecisions, h.unfiled id (Nat.le_of_succ_le hid)]
  · rw [hdecisions]
    exact h.once id
  · rw [hfilings, hdecisions, hr, h.count]
    by_cases hid : id = (filings tr).length
    · rw [hid, Function.update_self, List.getElem?_concat_length, h.unfiled _ le_rfl]
      rfl
    · rw [Function.update_of_ne hid, h.requests]
      rcases Nat.lt_or_gt_of_ne hid with hlt | hgt
      · rw [List.getElem?_append_left hlt]
      · rw [List.getElem?_eq_none hgt.le, List.getElem?_eq_none (by rw [hlen]; exact hgt)]

/-- A request that is pending has not been decided. -/
theorem Registered.undecided (h : Registered tr s) {q : ErasureRequestData}
    (hq : s.inst .erasureRequest id = some q) (hpending : q.status = .pending) :
    (filings tr)[id]? = some q ∧ decisions id tr = [] := by
  rw [h.requests, Option.map_eq_some_iff] at hq
  obtain ⟨q₀, hq₀, rfl⟩ := hq
  have hnil : decisions id tr = [] := by
    rcases List.eq_nil_or_concat (decisions id tr) with hnil | ⟨ds, d, hd⟩
    · exact hnil
    · rw [hd, List.concat_eq_append, List.foldl_append, List.foldl_cons, List.foldl_nil,
        ErasureRequestData.decided] at hpending
      revert hpending
      cases d.approve <;> simp
  refine ⟨?_, hnil⟩
  rw [hnil, List.foldl_nil]
  exact hq₀

/-- A request is decided. -/
theorem Registered.decided {q : ErasureRequestData} {d : Decision} (h : Registered tr s)
    (hq : s.inst .erasureRequest id = some q) (hpending : q.status = .pending) (hfiling : act.filing = none)
    (hdecision : ∀ k, act.decision k = if id = k then some d else none) (hc : nextRequest s' = nextRequest s)
    (hr : s'.inst .erasureRequest = Function.update (s.inst .erasureRequest) id (some (q.decided d))) :
    Registered (tr ++ [(s, act)]) s' := by
  obtain ⟨hfiled, hnil⟩ := h.undecided hq hpending
  have hfilings : filings (tr ++ [(s, act)]) = filings tr := by
    rw [filings_concat, hfiling, Option.toList_none, List.append_nil]
  have hself : decisions id (tr ++ [(s, act)]) = [d] := by
    rw [decisions_concat, hdecision, if_pos rfl, hnil, Option.toList_some, List.nil_append]
  have hother : ∀ k, id ≠ k → decisions k (tr ++ [(s, act)]) = decisions k tr := by
    intro k hk
    rw [decisions_concat, hdecision, if_neg hk, Option.toList_none, List.append_nil]
  refine ⟨?_, fun k hk => ?_, fun k => ?_, fun k => ?_⟩
  · rw [hfilings, hc, h.count]
  · rw [hfilings] at hk
    have hlt := (List.getElem?_eq_some_iff.1 hfiled).1
    rw [hother k (by omega), h.unfiled k hk]
  · by_cases hk : id = k
    · rw [← hk, hself]
      rfl
    · rw [hother k hk]
      exact h.once k
  · rw [hfilings, hr]
    by_cases hk : id = k
    · rw [← hk, Function.update_self, hfiled, hself]
      rfl
    · rw [Function.update_of_ne (Ne.symm hk), hother k hk, h.requests]

/-- **A step keeps the register.** -/
theorem Registered.next (h : Registered tr s) (hn : Next H s act s') : Registered (tr ++ [(s, act)]) s' := by
  cases act with
  | call env op =>
    obtain ⟨r, hs⟩ := hn
    have hframe := (exec_writes H op).of_run hs
    cases op with
    | requestErasure a i reason =>
      obtain ⟨k, hrun, -⟩ := of_run_map env s hs
      obtain ⟨-, hc, hr⟩ := post_requestErasure.of_run hrun
      exact h.filed rfl (fun _ => rfl) hc hr
    | processErasureRequest a k approve j =>
      obtain ⟨_, hrun, -⟩ := of_run_map env s hs
      obtain ⟨q, hq, hpending, hr⟩ := post_processErasureRequest_decided.of_run hrun
      refine h.decided hq hpending rfl (fun _ => rfl) ?_ hr
      rw [nextRequest, nextRequest, hframe.inst (notMem_of_eval rfl)]
    | _ =>
      exact h.of_eq rfl (fun _ => rfl) (hframe.inst (notMem_of_eval rfl)) (hframe.inst (notMem_of_eval rfl))
  | expireTemporary f k | expirePersistent f k =>
    rw [Next] at hn
    subst hn
    exact h.of_eq rfl (fun _ => rfl) rfl rfl

theorem registered_of_history (h : History H tr s) : Registered tr s := by
  obtain ⟨s₀, h₀, hrun⟩ := h
  obtain ⟨g, m, hinit⟩ := initialized_of_init h₀
  induction hrun with
  | init =>
    refine ⟨?_, fun _ _ => rfl, fun _ => Nat.zero_le _, fun id => ?_⟩
    · rw [nextRequest, (hinit.absent (f := .erasureRequestCount) (by simp) ()).1]
      rfl
    · exact (hinit.absent (f := .erasureRequest) (by simp) id).1
  | snoc _ hn ih => exact ih.next hn

/-- **The register of requests.**  The requests are those that were filed, in the order of their ids, and
    each is decided at most once, for good. -/
theorem history_requests (h : History H tr s) :
    (∀ env a i reason r s', Step H env (.requestErasure a i reason) s r s' → r = .nat (filings tr).length) ∧
      ∀ id, (decisions id tr).length ≤ 1 ∧ s.inst .erasureRequest id =
        (filings tr)[id]?.map fun q => (decisions id tr).foldl ErasureRequestData.decided q := by
  have hreg := registered_of_history h
  refine ⟨fun env a i reason r s' hs => ?_, fun id => ⟨hreg.once id, hreg.requests id⟩⟩
  obtain ⟨k, hk, rfl⟩ := of_run_map env s hs
  obtain ⟨rfl, -⟩ := post_requestErasure.of_run hk
  rw [hreg.count]

/-! ## Erasures -/

/-- The event is erased. -/
def erasedAt (s : State D) (i : ℕ) : Bool := ((s.inst .erasureRecord i).map (·.erased)).getD false

/-- A request for the event has been fulfilled. -/
def Fulfilled (s : State D) (i : ℕ) : Prop :=
  ∃ id q, s.inst .erasureRequest id = some q ∧ q.eventIndex = i ∧ q.status = .fulfilled

/-- What a step finds expired. -/
def Action.sweeps (s : State D) : Action D → List ℕ
  | .call env (.runRetentionSweep a first n) => Op.erases env s (.runRetentionSweep a first n)
  | _ => []

/-- A sweep has found the event expired. -/
def Swept (tr : List (State D × Action D)) (i : ℕ) : Prop := ∃ p ∈ tr, i ∈ p.2.sweeps p.1

/-- What is erased stays erased. -/
theorem erasedAt_next {R : List Record} (hinj : Function.Injective H.sha256) (h : HasLog H s R)
    (hn : Next H s act s') : erasedAt s' i = true ↔ i ∈ act.erases s ∨ erasedAt s i = true := by
  by_cases hi : i ∈ act.erases s
  · obtain ⟨e, rec, -, hrec, herased, -⟩ := ((next_erasureRecord hinj h hn i).1 hi).2.2
    refine iff_of_true ?_ (Or.inl hi)
    rw [erasedAt, hrec]
    exact herased
  · rw [erasedAt, (next_erasureRecord hinj h hn i).2 hi, ← erasedAt, or_iff_right hi]

theorem fulfilled_congr (hr : s'.inst .erasureRequest = s.inst .erasureRequest) :
    Fulfilled s' i ↔ Fulfilled s i := by
  rw [Fulfilled, hr, Fulfilled]

/-- A request changes. -/
theorem fulfilled_update {q : ErasureRequestData}
    (hr : s'.inst .erasureRequest = Function.update (s.inst .erasureRequest) id (some q))
    (hid : ∀ q ∈ s.inst .erasureRequest id, q.status ≠ .fulfilled) :
    Fulfilled s' i ↔ (q.eventIndex = i ∧ q.status = .fulfilled) ∨ Fulfilled s i := by
  constructor
  · rintro ⟨k, q', hq', hi, hstatus⟩
    by_cases hk : k = id
    · rw [hr, hk, Function.update_self] at hq'
      obtain rfl := Option.some.inj hq'
      exact Or.inl ⟨hi, hstatus⟩
    · rw [hr, Function.update_of_ne hk] at hq'
      exact Or.inr ⟨k, q', hq', hi, hstatus⟩
  · rintro (⟨hi, hstatus⟩ | ⟨k, q', hq', hi, hstatus⟩)
    · exact ⟨id, q, by rw [hr, Function.update_self], hi, hstatus⟩
    · have hk : k ≠ id := by
        rintro rfl
        exact hid q' hq' hstatus
      exact ⟨k, q', by rw [hr, Function.update_of_ne hk]; exact hq', hi, hstatus⟩

/-- **What a step erases**, it erases for a request or in a sweep. -/
theorem fulfilled_next (h : Registered tr s) (hn : Next H s act s') :
    (Fulfilled s' i ∨ i ∈ act.sweeps s) ↔ i ∈ act.erases s ∨ Fulfilled s i := by
  cases act with
  | call env op =>
    obtain ⟨r, hs⟩ := hn
    have hframe := (exec_writes H op).of_run hs
    cases op with
    | requestErasure a k reason =>
      obtain ⟨_, hrun, -⟩ := of_run_map env s hs
      obtain ⟨-, -, hr⟩ := post_requestErasure.of_run hrun
      have hnone : s.inst .erasureRequest (nextRequest s) = none := by
        rw [h.requests, h.count, List.getElem?_eq_none le_rfl, Option.map_none]
      rw [fulfilled_update hr (by simp [hnone])]
      simp [Action.sweeps, Action.erases, Op.erases]
    | processErasureRequest a k approve j =>
      obtain ⟨_, hrun, -⟩ := of_run_map env s hs
      obtain ⟨q, hq, hpending, hr⟩ := post_processErasureRequest_decided.of_run hrun
      rw [fulfilled_update hr (by simp [hq, hpending])]
      cases approve <;>
        simp [Action.sweeps, Action.erases, Op.erases, Op.amends, hq, ErasureRequestData.decided, eq_comm]
    | runRetentionSweep a first n =>
      rw [fulfilled_congr (hframe.inst (notMem_of_eval rfl)), or_comm]
      rfl
    | _ =>
      rw [fulfilled_congr (hframe.inst (notMem_of_eval rfl)), or_comm]
      rfl
  | expireTemporary f k | expirePersistent f k =>
    rw [Next] at hn
    subst hn
    rw [fulfilled_congr rfl, or_comm]
    rfl

/-- **Where the erasures come from.**  An event is erased just when a request for it has been fulfilled or
    a sweep has found it expired, and it stays so. -/
theorem history_erased (hinj : Function.Injective H.sha256) (h : History H tr s) :
    (isEventErased i : Fn D Bool).run env s = .ok (true, s) ↔ Fulfilled s i ∨ Swept tr i := by
  have hrun : (isEventErased i : Fn D Bool).run env s = .ok (erasedAt s i, s) := rfl
  rw [hrun, Except.ok.injEq, Prod.mk.injEq, and_iff_left rfl]
  clear hrun
  obtain ⟨s₀, h₀, hrun⟩ := h
  induction hrun with
  | init =>
    obtain ⟨g, m, hinit⟩ := initialized_of_init h₀
    refine iff_of_false ?_ ?_
    · rw [erasedAt, (hinit.absent (f := .erasureRecord) (by simp) i).1]
      simp
    · rintro (⟨id, q, hq, -⟩ | ⟨p, hp, -⟩)
      · rw [(hinit.absent (f := .erasureRequest) (by simp) id).1] at hq
        cases hq
      · cases hp
  | @snoc tr s s' act hr hn ih =>
    obtain ⟨R, hR⟩ := hasLog_of_history hinj ⟨s₀, h₀, hr⟩
    have hswept : Swept (tr ++ [(s, act)]) i ↔ Swept tr i ∨ i ∈ act.sweeps s := by
      simp only [Swept, List.mem_append, List.mem_singleton, or_and_right, exists_or, exists_eq_left]
    have ih : erasedAt s i = true ↔ Fulfilled s i ∨ Swept tr i := ih
    rw [erasedAt_next hinj hR hn, ih, hswept, ← or_assoc,
      ← fulfilled_next (registered_of_history ⟨s₀, h₀, hr⟩) hn]
    tauto

/-- The first of two requests is fulfilled, the second denied, and another event expires. -/
def registerScript : List (Env × Op Bytes) :=
  [(openEnv 11, .logEvent (account 66) "a" [1] none none false),
    (openEnv 11, .logEvent (account 66) "a" [2] none none false),
    (openEnv 12, .requestErasure (account 66) 0 "gdpr"), (openEnv 12, .requestErasure (account 67) 1 "gdpr"),
    (openEnv 13, .processErasureRequest (account 65) 0 true []),
    (openEnv 13, .processErasureRequest (account 65) 1 false []),
    (openEnv 14, .setDefaultRetentionDays (account 65) 1),
    (openEnv 200000, .runRetentionSweep (account 65) 0 10)]

theorem history_requests_registerScript : ∃ s, Reachable plainHost s ∧
    (s.inst .erasureRequest 1).map (·.status) = some .denied := by
  let s₀ : State Bytes := deployed (openEnv 10) (account 65) 100 50
  obtain ⟨s, hs⟩ : ∃ s, play plainHost s₀ registerScript = some s :=
    Option.isSome_iff_exists.1 (by decide +kernel)
  have hhist := history_of_play (init_deployed rfl 100 50) hs
  refine ⟨s, ⟨_, hhist⟩, ?_⟩
  rw [((history_requests hhist).2 1).2]
  decide +kernel

/-- The first event is erased for the request, the second although its request was denied. -/
theorem history_erased_registerScript : ∃ s, Reachable plainHost s ∧ Fulfilled s 0 ∧
    (isEventErased 0 : Fn Bytes Bool).run (openEnv 20) s = .ok (true, s) ∧
    (isEventErased 1 : Fn Bytes Bool).run (openEnv 20) s = .ok (true, s) := by
  let s₀ : State Bytes := deployed (openEnv 10) (account 65) 100 50
  obtain ⟨s, hs⟩ : ∃ s, play plainHost s₀ registerScript = some s :=
    Option.isSome_iff_exists.1 (by decide +kernel)
  have hhist := history_of_play (init_deployed rfl 100 50) hs
  have hrequest : (play plainHost s₀ registerScript).map (fun s => s.inst .erasureRequest 0) =
      some (some ⟨account 66, 0, "gdpr", 12, .fulfilled, some (account 65), 13, []⟩) := by decide +kernel
  have hswept : Swept (traceOf plainHost s₀ registerScript) 1 := by
    rw [Swept]
    decide +kernel
  rw [hs, Option.map_some, Option.some.injEq] at hrequest
  have hfulfilled : Fulfilled s 0 := ⟨0, _, hrequest, rfl, rfl⟩
  exact ⟨s, ⟨_, hhist⟩, hfulfilled, (history_erased Function.injective_id hhist).2 (Or.inl hfulfilled),
    (history_erased Function.injective_id hhist).2 (Or.inr hswept)⟩

end AuditLedger
