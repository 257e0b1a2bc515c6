/-
  AuditLedger — the compliance report and the retention sweep
  (`src/data_retention.rs`).

  The report and the sweep classify the events of a window in two loops of their
  own.  `Standing` is the classification: the report counts it, and the sweep
  erases what stands as erasable, which then stands as erased.

  * `LogInv.verifyRetentionCompliance_run`: the report counts the standings of its window;
  * `returns_runRetentionSweep_iff`: which sweeps return;
  * `sweep_agrees`: what the report says before a sweep and after it.
-/
import AuditTransparency.Ledger.Returning
import AuditTransparency.Ledger.Erasure

namespace AuditLedger

open Soroban
open Soroban.Call hiding hasPers publish

variable {D : Type} [DecidableEq D] {H : Host D} {env : Env} {s s' t : State D} {L : List (Entry D)}
  {R : List Record} {caller : Address} {i k n c now first : ℕ} {p : Entry D}

/-! ## The report -/

/-- `RetentionComplianceReport` -/
structure RetentionComplianceReport where
  checked : ℕ
  compliant : ℕ
  overdueBlockedHold : ℕ
  overdueBlockedException : ℕ
  overdueErasable : ℕ
  alreadyErased : ℕ
  deriving DecidableEq

/-- One round of the loop of `verify_retention_compliance`. -/
def classifyEvent (report : RetentionComplianceReport) (i : ℕ) : Fn D RetentionComplianceReport := do
  let event ← getEventByOrder i
  let report := { report with checked := report.checked + 1 }
  if event.category = operationalCategory then
    return { report with compliant := report.compliant + 1 }
  else do
    let erased ← isEventErased i
    if erased then
      return { report with alreadyErased := report.alreadyErased + 1 }
    else do
      let retentionDays ← retentionDaysFor event.category
      if retentionDays = 0 then
        return { report with compliant := report.compliant + 1 }
      else do
        let now := (← getEnv).timestamp
        if now - event.timestamp ≤ min (retentionDays * 86400) (2 ^ 64 - 1) then
          return { report with compliant := report.compliant + 1 }
        else do
          let held ← isUnderLegalHold i
          if held then
            return { report with overdueBlockedHold := report.overdueBlockedHold + 1 }
          else do
            let exempt ← hasActiveComplianceException i
            if exempt then
              return { report with overdueBlockedException := report.overdueBlockedException + 1 }
            else
              return { report with overdueErasable := report.overdueErasable + 1 }

/-- `verify_retention_compliance` -/
def verifyRetentionCompliance (startIndex batchSize : ℕ) : Fn D RetentionComplianceReport := do
  requireInitialized
  let total ← totalEvents
  let stop := if min (startIndex + batchSize) (2 ^ 32 - 1) < total then startIndex + batchSize else total
  (List.range' startIndex (stop - startIndex)).foldlM classifyEvent ⟨0, 0, 0, 0, 0, 0⟩

/-! ## Standings -/

/-- How an event stands to its retention period. -/
inductive Standing where
  | compliant
  | held
  | exempt
  | erasable
  | erased
  deriving DecidableEq

/-- How a sweep leaves it. -/
def Standing.swept : Standing → Standing
  | .erasable => .erased
  | standing => standing

namespace RetentionComplianceReport
variable {report : RetentionComplianceReport} {standing : Standing}

/-- The report counts one more event. -/
def add (report : RetentionComplianceReport) (standing : Standing) : RetentionComplianceReport :=
  let report := { report with checked := report.checked + 1 }
  match standing with
  | .compliant => { report with compliant := report.compliant + 1 }
  | .held => { report with overdueBlockedHold := report.overdueBlockedHold + 1 }
  | .exempt => { report with overdueBlockedException := report.overdueBlockedException + 1 }
  | .erasable => { report with overdueErasable := report.overdueErasable + 1 }
  | .erased => { report with alreadyErased := report.alreadyErased + 1 }

/-- The report with what was erasable erased. -/
def swept (report : RetentionComplianceReport) : RetentionComplianceReport :=
  { report with overdueErasable := 0, alreadyErased := report.alreadyErased + report.overdueErasable }

/-- Every event it checked is counted once. -/
def Balanced (report : RetentionComplianceReport) : Prop :=
  report.checked = report.compliant + report.overdueBlockedHold + report.overdueBlockedException +
    report.overdueErasable + report.alreadyErased

theorem Balanced.add (h : report.Balanced) : (report.add standing).Balanced := by
  unfold Balanced at h ⊢
  cases standing <;> simp only [RetentionComplianceReport.add] <;> omega

theorem Balanced.foldl_add (h : report.Balanced) (l : List Standing) : (l.foldl RetentionComplianceReport.add report).Balanced := by
  induction l generalizing report with
  | nil => exact h
  | cons standing l ih => exact ih h.add

theorem swept_add : (report.add standing).swept = report.swept.add standing.swept := by
  cases standing with
  | erased => simp [add, swept, Standing.swept, Nat.add_right_comm]
  | _ => simp [add, swept, Standing.swept, Nat.add_assoc]

theorem swept_foldl_add (l : List Standing) :
    (l.foldl add report).swept = (l.map Standing.swept).foldl add report.swept := by
  induction l generalizing report with
  | nil => rfl
  | cons standing l ih => rw [List.foldl_cons, ih, swept_add, List.map_cons, List.foldl_cons]

theorem overdueErasable_foldl_add (l : List Standing) :
    (l.foldl add report).overdueErasable = report.overdueErasable + l.count .erasable := by
  induction l generalizing report with
  | nil => rfl
  | cons standing l ih =>
    rw [List.foldl_cons, ih, List.count_cons]
    cases standing with
    | erasable =>
      simp [add]
      omega
    | _ => simp [add]

end RetentionComplianceReport

/-- How the event at `i` stands. -/
def standingAt (s : State D) (now i : ℕ) : Standing :=
  match eventAt s i with
  | none => .compliant
  | some e =>
    let days := (((s.inst .retentionPolicy e.category).map (·.retentionDays)).or
      (s.inst .defaultRetentionDays ())).getD 0
    if e.category = operationalCategory then .compliant
    else if ((s.inst .erasureRecord i).map (·.erased)).getD false then .erased
    else if days = 0 then .compliant
    else if now - e.timestamp ≤ min (days * 86400) (2 ^ 64 - 1) then .compliant
    else if ((s.inst .legalHold i).map (·.active)).getD false then .held
    else if ((s.inst .complianceException i).map fun c =>
      decide (c.expiresAt = 0 ∨ c.expiresAt > now)).getD false then .exempt
    else .erasable

/-- The sweep erases what stands as erasable. -/
theorem expired_iff_standingAt : expired s now i = true ↔ standingAt s now i = .erasable := by
  unfold expired standingAt
  cases eventAt s i with
  | none => simp
  | some e =>
    dsimp only
    split_ifs <;> simp_all

/-- An erased event that is not operational. -/
theorem standingAt_of_erased {e : Event D} (he : eventAt s i = some e) (hcat : e.category ≠ operationalCategory)
    (herased : ((s.inst .erasureRecord i).map (·.erased)).getD false = true) :
    standingAt s now i = .erased := by
  simp [standingAt, he, hcat, herased]

/-- What decides how an event stands. -/
theorem standingAt_congr
    (he : (eventAt s' i).map (·.record.core) = (eventAt s i).map (·.record.core))
    (hr : s'.inst .erasureRecord i = s.inst .erasureRecord i)
    (hs : ∀ f ∈ [DataKey.retentionPolicy, .defaultRetentionDays, .legalHold, .complianceException],
      s'.inst f = s.inst f) : standingAt s' now i = standingAt s now i := by
  unfold standingAt
  rcases h' : eventAt s' i with _ | e' <;> rcases h : eventAt s i with _ | e
  · rfl
  · rw [h, h'] at he; cases he
  · rw [h, h'] at he; cases he
  · rw [h, h'] at he
    simp only [Option.map_some, Option.some.injEq, Record.core, Event.record, Record.mk.injEq] at he
    obtain ⟨hts, -, hcat, -⟩ := he
    simp only [hs .retentionPolicy (by simp), hs .defaultRetentionDays (by simp), hs .legalHold (by simp),
      hs .complianceException (by simp), hr, hts, hcat]

theorem LogInv.getEventByOrder_run (h : LogInv H s L) (hp : L[i]? = some p) :
    (getEventByOrder i : Fn D (Event D)).run env s = .ok (p.2, s) := by
  rw [getEventByOrder, run_bind_ok _ _ h.requireInitialized_run]
  exact h.fetch_run hp _ _

/-- A round of the report counts how its event stands. -/
theorem LogInv.classifyEvent_run (h : LogInv H s L) (hp : L[i]? = some p) (report : RetentionComplianceReport) :
    (classifyEvent report i).run env s = .ok (report.add (standingAt s env.timestamp i), s) := by
  have hat : eventAt s i = some p.2 := by rw [h.holds.eventAt_eq, hp]; rfl
  rw [classifyEvent, run_bind_ok _ _ (h.getEventByOrder_run hp)]
  simp only [isEventErased, retentionDaysFor, isUnderLegalHold, hasActiveComplianceException, run_bind,
    run_load, run_pure, run_getEnv, run_ite, Except.bind, standingAt, hat]
  split_ifs <;> rfl

/-- The standings of a window, counted. -/
def reportOf (s : State D) (now first n : ℕ) : RetentionComplianceReport :=
  ((List.range' first n).map (standingAt s now)).foldl RetentionComplianceReport.add ⟨0, 0, 0, 0, 0, 0⟩

/-- The number of positions in the window of a batch. -/
def windowOf (total first batch : ℕ) : ℕ :=
  (if min (first + batch) (2 ^ 32 - 1) < total then first + batch else total) - first

theorem lt_of_lt_windowOf {total first batch : ℕ} (h : i < first + windowOf total first batch) (hi : first ≤ i)
    (htotal : total < 2 ^ 32) : i < total ∧ i < first + batch := by
  unfold windowOf at h
  split_ifs at h <;> omega

/-- **The report** counts how the events of its window stand. -/
theorem LogInv.verifyRetentionCompliance_run (h : LogInv H s L) (first batch : ℕ) :
    (verifyRetentionCompliance first batch).run env s =
      .ok (reportOf s env.timestamp first (windowOf L.length first batch), s) := by
  have hloop : ∀ (l : List ℕ) (report : RetentionComplianceReport), (∀ i ∈ l, i < L.length) →
      (l.foldlM classifyEvent report).run env s =
        .ok ((l.map (standingAt s env.timestamp)).foldl RetentionComplianceReport.add report, s) := by
    intro l
    induction l with
    | nil => intro report _; rfl
    | cons i l ih =>
      intro report hl
      obtain ⟨p, hp⟩ : ∃ p, L[i]? = some p := ⟨_, List.getElem?_eq_getElem (hl i (by simp))⟩
      rw [List.foldlM_cons, run_bind_ok _ _ (h.classifyEvent_run hp report),
        ih _ fun j hj => hl j (List.mem_cons_of_mem _ hj)]
      rfl
  rw [verifyRetentionCompliance, run_bind_ok _ _ h.requireInitialized_run, run_bind_ok _ _ h.totalEvents_run]
  refine hloop _ _ fun i hi => ?_
  rw [List.mem_range'_1] at hi
  exact (lt_of_lt_windowOf hi.2 hi.1 h.chain.length_lt).1

/-! ## The sweep -/

theorem Standing.swept_of_ne {standing : Standing} (h : standing ≠ .erasable) : standing.swept = standing := by
  cases standing with
  | erasable => exact absurd rfl h
  | _ => rfl

/-- How an event of the window stands after the sweep. -/
theorem SweptTo.standingAt_eq (ht : SweptTo H R now first s n c t) (h : HasLog H s R)
    (hi : first ≤ i ∧ i < first + n) : standingAt t now i = (standingAt s now i).swept := by
  have hcore := ht.core_eq h i
  by_cases hexp : expired s now i = true
  · rw [expired_iff_standingAt.1 hexp]
    obtain ⟨e, rec, he, hrec, herased, -⟩ := ht.recorded i (mem_sweepAmends.2 ⟨hi, hexp⟩)
    obtain ⟨⟨e', he', hcat⟩, -⟩ := of_expired hexp
    obtain rfl : e = e' := Option.some.inj (he.symm.trans he')
    rw [he] at hcore
    obtain ⟨e', he', hcore'⟩ := Option.map_eq_some_iff.1 hcore
    simp only [Record.core, Event.record, Record.mk.injEq] at hcore'
    refine standingAt_of_erased he' ?_ (by rw [hrec]; exact herased)
    rw [hcore'.2.2.1]
    exact hcat
  · have hkept := ht.kept i fun hmem => hexp (mem_sweepAmends.1 hmem).2
    rw [Standing.swept_of_ne fun heq => hexp (expired_iff_standingAt.2 heq)]
    exact standingAt_congr hcore hkept (ht.frame.inst_eq (apart_of_eval rfl))

/-- **The report after a sweep** of its window. -/
theorem SweptTo.reportOf_eq (ht : SweptTo H R now first s n c t) (h : HasLog H s R) :
    reportOf t now first n = (reportOf s now first n).swept := by
  have hmap : (List.range' first n).map (standingAt t now) =
      ((List.range' first n).map (standingAt s now)).map Standing.swept := by
    rw [List.map_map]
    refine List.map_congr_left fun i hi => ?_
    rw [List.mem_range'_1] at hi
    exact ht.standingAt_eq h hi
  rw [reportOf, hmap, reportOf, RetentionComplianceReport.swept_foldl_add]
  rfl

/-- The sweep erases as many events as the report finds erasable. -/
theorem length_sweepAmends : (sweepAmends s now first n).length = (reportOf s now first n).overdueErasable := by
  have hsame : expired s now = fun i => standingAt s now i == .erasable := by
    funext i
    rw [Bool.eq_iff_iff, expired_iff_standingAt, beq_iff_eq]
  rw [reportOf, RetentionComplianceReport.overdueErasable_foldl_add, sweepAmends, List.length_map, Nat.zero_add,
    List.count, List.countP_map, List.countP_eq_length_filter, hsame]
  rfl

/-- The type of the event at `i` accepts empty metadata. -/
def Emptiable (s : State D) (i : ℕ) : Prop := ∀ e, eventAt s i = some e → Accepts s e.eventType []

theorem accepts_congr {eventType : Symbol} {m : Bytes}
    (hs : ∀ f ∈ [DataKey.eventMetadataMaxSize, .globalMetadataMaxSize, .metadataSchema], s'.inst f = s.inst f) :
    Accepts s' eventType m ↔ Accepts s eventType m := by
  simp only [Accepts, hs .eventMetadataMaxSize (by simp), hs .globalMetadataMaxSize (by simp),
    hs .metadataSchema (by simp)]

/-- **A round of the sweep returns** when the event it erases may be emptied. -/
theorem SweptTo.returns_sweepEvent (ht : SweptTo H R env.timestamp first s n c t) (h : HasLog H s R)
    (ha : Authorised env s caller) (hi : first + n < R.length) :
    Returns (sweepEvent H caller c (first + n)) (fun _ _ => True) env t ↔
      (expired s env.timestamp (first + n) = true → Emptiable s (first + n)) := by
  obtain ⟨M, hM, hrecords⟩ := ht.log
  have hlen : first + n < M.length := by
    have hsame := congrArg List.length hrecords
    rw [records, List.length_map, length_amendAll] at hsame
    rwa [hsame]
  obtain ⟨p, hp⟩ : ∃ p, M[first + n]? = some p := ⟨_, List.getElem?_eq_getElem hlen⟩
  have hat : eventAt t (first + n) = some p.2 := by rw [hM.holds.eventAt_eq, hp]; rfl
  have hauth : Authorised env t caller := ha.of_eq (ht.frame.inst_eq (apart_of_eval rfl))
  have hexpired := ht.expired_eq h (i := first + n) fun hmem => by
    rw [mem_sweepAmends] at hmem
    omega
  -- the type of the event is what it was before the sweep
  have hempty : Emptiable s (first + n) ↔ Accepts t p.2.eventType [] := by
    have hcore := ht.core_eq h (first + n)
    rw [hat] at hcore
    obtain ⟨e, he, hcore⟩ := Option.map_eq_some_iff.1 hcore.symm
    simp only [Record.core, Event.record, Record.mk.injEq] at hcore
    rw [accepts_congr (ht.frame.inst_eq (apart_of_eval rfl)), ← hcore.2.1, Emptiable, he]
    simp
  rw [← hexpired, hempty, expired, hat]
  simp only [sweepEvent, returns_bind, returns_of_run (hM.getEventByOrder_run hp), isEventErased,
    retentionDaysFor, isUnderLegalHold, hasActiveComplianceException, returns_load, returns_pure,
    returns_getEnv, returns_ite, eraseMetadata, returns_store, hM.returns_updateEvent hauth hp,
    decide_eq_true_eq, implies_true, true_and]

theorem sweptTo_publish {note : Published D} :
    SweptTo H R now first s n c (t.publish note) ↔ SweptTo H R now first s n c t := by
  constructor
  · intro h
    exact ⟨h.log.of_eq fun _ _ => rfl, h.frame, h.recorded, h.kept, h.count⟩
  · intro h
    exact ⟨h.log.publish, h.frame, h.recorded, h.kept, h.count⟩

theorem LogInv.post_runRetentionSweep (hinj : Function.Injective H.sha256) (h : LogInv H s L) {batch : ℕ} :
    Post (runRetentionSweep H caller first batch)
      (SweptTo H (records L) env.timestamp first s (windowOf L.length first batch)) env s := by
  simp only [runRetentionSweep, post_bind, post_pure, post_publish, sweptTo_publish]
  exact post_reads fun _ _ => (post_of_run h.totalEvents_run).2 (post_sweep hinj ⟨L, h, rfl⟩)

/-- **A sweep returns** when every event it erases may be emptied. -/
theorem LogInv.returns_runRetentionSweep (hinj : Function.Injective H.sha256) (h : LogInv H s L)
    (ha : Authorised env s caller) (first batch : ℕ) :
    Returns (runRetentionSweep H caller first batch)
        (SweptTo H (records L) env.timestamp first s (windowOf L.length first batch)) env s ↔
      ∀ i, first ≤ i → i < first + windowOf L.length first batch →
        expired s env.timestamp i = true → Emptiable s i := by
  have hlog : HasLog H s (records L) := ⟨L, h, rfl⟩
  simp only [runRetentionSweep, returns_bind, returns_of_run (ha.requireCaller_run h), returns_of_run h.totalEvents_run,
    returns_publish, returns_pure, sweptTo_publish]
  refine returns_range'_iff _ _ _ _ _ (sweptTo_refl hlog) ?_ ?_
  · intro j c t _ ht
    exact ht.post_sweepEvent hinj hlog
  · intro j c t hj ht
    refine ht.returns_sweepEvent hlog ha ?_
    rw [records, List.length_map]
    have hwindow : first + j < first + windowOf L.length first batch := Nat.add_lt_add_left hj first
    exact (lt_of_lt_windowOf hwindow (Nat.le_add_right first j) h.chain.length_lt).1

/-- No schema requires metadata. -/
def NoMinimum (s : State D) : Prop :=
  ∀ eventType schema, s.inst .metadataSchema eventType = some schema → validateMetadataSchema [] schema = true

/-- **The sweep and the report agree**: a sweep erases as many events as the report of its window finds erasable,
    the report after it counts these as erased and is the same otherwise, and no other metadata changes. -/
theorem sweep_agrees (hinj : Function.Injective H.sha256) {tr : List (State D × Action D)} (h : History H tr s)
    (hschemas : NoMinimum s) (ha : Authorised env s caller) (first batch : ℕ) :
    ∃ before s' after,
      (∀ env', env'.timestamp = env.timestamp →
        (verifyRetentionCompliance first batch).run env' s = .ok (before, s) ∧
        (verifyRetentionCompliance first batch).run env' s' = .ok (after, s')) ∧
      (runRetentionSweep H caller first batch).run env s = .ok (before.overdueErasable, s') ∧
      after.checked = before.checked ∧ after.compliant = before.compliant ∧
      after.overdueBlockedHold = before.overdueBlockedHold ∧
      after.overdueBlockedException = before.overdueBlockedException ∧ after.overdueErasable = 0 ∧
      after.alreadyErased = before.alreadyErased + before.overdueErasable ∧ before.Balanced ∧ after.Balanced ∧
      ∀ i, i < first ∨ first + batch ≤ i → metadataAt s' i = metadataAt s i := by
  obtain ⟨R, L, hL, rfl⟩ := hasLog_of_history hinj h
  have hlog : HasLog H s (records L) := ⟨L, hL, rfl⟩
  have hempty : ∀ i, Emptiable s i := fun i e _ => ⟨Nat.zero_le _, hschemas e.eventType⟩
  obtain ⟨c, s', hsweep, hswept⟩ :=
    (hL.returns_runRetentionSweep hinj ha first batch).2 fun i _ _ _ => hempty i
  obtain ⟨M, hM, hrecords⟩ := hswept.log
  have hlen : M.length = L.length := by
    have hsame := congrArg List.length hrecords
    rwa [records, List.length_map, length_amendAll, records, List.length_map] at hsame
  have hzero : (⟨0, 0, 0, 0, 0, 0⟩ : RetentionComplianceReport).Balanced := rfl
  have hbalanced : ∀ (t : State D) n, (reportOf t env.timestamp first n).Balanced := fun t n => hzero.foldl_add _
  have hreport := hswept.reportOf_eq hlog
  refine ⟨reportOf s env.timestamp first (windowOf L.length first batch), s',
    (reportOf s env.timestamp first (windowOf L.length first batch)).swept, fun env' henv => ⟨?_, ?_⟩,
    ?_, rfl, rfl, rfl, rfl, rfl, rfl, hbalanced s _, ?_, ?_⟩
  · rw [hL.verifyRetentionCompliance_run, henv]
  · rw [hM.verifyRetentionCompliance_run, henv, hlen, hreport]
  · rw [hsweep, hswept.count, length_sweepAmends]
  · rw [← hreport]
    exact hbalanced s' _
  · intro i hout
    have hmem : i ∉ (sweepAmends s env.timestamp first (windowOf L.length first batch)).map Prod.fst := by
      intro hmem
      obtain ⟨⟨hle, hlt⟩, -⟩ := mem_sweepAmends.1 hmem
      have hbatch := lt_of_lt_windowOf hlt hle hL.chain.length_lt
      omega
    have hrecord : (eventAt s' i).map Event.record = (eventAt s i).map Event.record := by
      rw [hswept.log.eventAt, hlog.eventAt]
      rcases hq : (records L)[i]? with _ | q
      · rw [List.getElem?_eq_none_iff, length_amendAll]
        exact List.getElem?_eq_none_iff.1 hq
      · exact getElem?_amendAll hq fun p hp hpi => absurd (hpi ▸ List.mem_map_of_mem hp) hmem
    have hmeta := congrArg (Option.map Record.metadata) hrecord
    rwa [Option.map_map, Option.map_map] at hmeta

/-- Two overdue events, one of them under a legal hold. -/
def overdueScript : List (Env × Op Bytes) :=
  [(openEnv 11, .logEvent (account 66) "a" [1] none none false),
    (openEnv 12, .logEvent (account 66) "b" [2] none none false),
    (openEnv 13, .setDefaultRetentionDays (account 65) 1), (openEnv 14, .placeLegalHold (account 65) 1 [9])]

theorem sweep_agrees_overdueScript : ∃ s s', Reachable plainHost s ∧
    (verifyRetentionCompliance 0 10).run (openEnv 200000) s = .ok (⟨2, 0, 1, 0, 1, 0⟩, s) ∧
    (runRetentionSweep plainHost (account 65) 0 10).run (openEnv 200000) s = .ok (1, s') ∧
    (verifyRetentionCompliance 0 10).run (openEnv 200000) s' = .ok (⟨2, 0, 1, 0, 0, 1⟩, s') := by
  let s₀ : State Bytes := deployed (openEnv 10) (account 65) 100 50
  obtain ⟨s, hs⟩ : ∃ s, play plainHost s₀ overdueScript = some s := Option.isSome_iff_exists.1 (by decide +kernel)
  have hinit : Init s₀ := init_deployed rfl 100 50
  obtain ⟨g, m, hini⟩ := initialized_of_init hinit
  have facts : (play plainHost s₀ overdueScript).map (fun s => ((rosterOf s).rbac,
      decide ((rosterOf s).IsOwner (account 65)),
      ((verifyRetentionCompliance 0 10).run (openEnv 200000) s).toOption.map (·.1))) =
      some (false, true, some ⟨2, 0, 1, 0, 1, 0⟩) := by decide +kernel
  rw [hs, Option.map_some, Option.some.injEq] at facts
  simp only [Prod.mk.injEq, decide_eq_true_eq] at facts
  obtain ⟨hrbac, howner, hreport⟩ := facts
  have hschemas : NoMinimum s := by
    intro eventType schema hschema
    rw [inst_of_play hs (by simp [overdueScript]), (hini.absent (f := .metadataSchema) (by simp) eventType).1]
      at hschema
    cases hschema
  have ha : Authorised (openEnv 200000) s (account 65) := authorised_of_owner rfl hrbac howner
  obtain ⟨before, s', after, hruns, hsweep, h₁, h₂, h₃, h₄, h₅, h₆, -⟩ :=
    sweep_agrees Function.injective_id (history_of_play hinit hs) hschemas ha 0 10
  obtain ⟨hbefore, hafter⟩ := hruns (openEnv 200000) rfl
  rw [hbefore] at hreport
  obtain rfl : before = ⟨2, 0, 1, 0, 1, 0⟩ := Option.some.inj hreport
  obtain rfl : after = ⟨2, 0, 1, 0, 0, 1⟩ := by
    cases after
    simp_all
  exact ⟨s, s', ⟨_, history_of_play hinit hs⟩, hbefore, hsweep, hafter⟩

end AuditLedger
