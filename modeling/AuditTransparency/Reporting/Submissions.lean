/-
  Regulatory reporting — submissions and acknowledgments (`src/submission_tracker.rs`).

  A report is submitted, the authority acknowledges the submission, and the
  acknowledgment resolves the report.  The functions work on values the caller keeps:
  a report they are given as `&mut` is an argument and a result here, so that what they
  have written to it when they fail is kept.

  The pipeline is what callers make of these functions: any reports, submissions that
  were created for one of them, acknowledgments that were ingested for one of those,
  and calls in any order.

  * `applyAcknowledgment_eq`: what `apply_acknowledgment` does with a report;
  * `Traced`: where the submissions and the acknowledgments of a pipeline come from;
  * `history_resolved`: exactly when every report is resolved by the answer to its last
    submission.
-/
import AuditTransparency.Reporting.AuditTrail
import AuditTransparency.Soroban.Run

namespace RegulatoryReporting

open Soroban
open AuditLedger (u32ToBytes u64ToBytes u32ToBytes_injective)

/-! ## Data -/

/-- A report, as far as the tracker reads and writes it. -/
structure RegulatoryReport (D : Type) where
  id : D
  deadline : ℕ
  status : ReportStatus
  updatedAt : ℕ

structure RegulatorySubmission (D : Type) where
  id : D
  reportId : D
  attempt : UInt32
  submittedAt : ℕ
  endpoint : Bytes
  referenceNumber : Option Bytes
  responseCode : ℕ
  responsePayload : Bytes
  status : ReportStatus
  retryEligible : Bool
  retryAfter : ℕ
  deriving DecidableEq

structure SubmissionAcknowledgment (D : Type) where
  id : D
  submissionId : D
  reportId : D
  referenceNumber : Bytes
  accepted : Bool
  rejectionReason : Bytes
  errorCodes : List Bytes
  receivedAt : ℕ
  ackHash : D
  deriving DecidableEq

/-- The configuration of an authority, as far as the tracker reads it. -/
structure AuthorityConfig where
  enabled : Bool
  endpoint : Bytes
  maxRetries : UInt32
  retryDelaySeconds : ℕ
  exponentialBackoff : Bool

inductive ReportingError where
  | invalidStatusTransition
  | authorityDisabled
  | maxRetriesExceeded
  | deadlineExceeded
  | acknowledgmentOrphan
  deriving DecidableEq

/-! ## Functions -/

/-- `check_transition` -/
def checkTransition (current next : ReportStatus) : Except ReportingError Unit :=
  let allowed := match current, next with
    | .draft, .validated | .draft, .cancelled
    | .validated, .submitted | .validated, .cancelled
    | .submitted, .acknowledged | .submitted, .rejected | .submitted, .cancelled | .submitted, .overdue
    | .acknowledged, .accepted | .acknowledged, .rejected | .acknowledged, .cancelled
    | .rejected, .submitted | .rejected, .cancelled => true
    | _, _ => false
  if allowed then .ok () else .error .invalidStatusTransition

section
variable {D : Type}

/-- `compute_submission_id` -/
def computeSubmissionId (H : Host D) (reportId : D) (attempt : UInt32) : D :=
  H.sha256 (H.bytesOf reportId ++ u32ToBytes attempt.toNat)

/-- `compute_ack_id` -/
def computeAckId (H : Host D) (submissionId : D) (receivedAt : ℕ) : D :=
  H.sha256 (H.bytesOf submissionId ++ u64ToBytes receivedAt)

/-- The back-off before an attempt: doubled for every attempt, and at most a day. -/
def retryDelay (config : AuthorityConfig) (attempt : UInt32) : ℕ :=
  if config.exponentialBackoff then
    let factor := if attempt.toNat - 1 < 64 then 2 ^ (attempt.toNat - 1) else 2 ^ 64 - 1
    min (min (config.retryDelaySeconds * factor) (2 ^ 64 - 1)) 86400
  else config.retryDelaySeconds

/-- `create_submission`; the sum with the ledger time traps when it overflows. -/
def createSubmission (H : Host D) (report : RegulatoryReport D) (attempt : UInt32)
    (config : AuthorityConfig) (now : ℕ) : Except (Trap ReportingError) (RegulatorySubmission D) :=
  if report.status = .draft then .error (.contract .invalidStatusTransition)
  else if config.enabled = false then .error (.contract .authorityDisabled)
  else if now > report.deadline then .error (.contract .deadlineExceeded)
  else if attempt > config.maxRetries then .error (.contract .maxRetriesExceeded)
  else if 1 < attempt ∧ 2 ^ 64 ≤ now + retryDelay config attempt then .error .overflow
  else .ok {
    id := computeSubmissionId H report.id attempt
    reportId := report.id
    attempt
    submittedAt := now
    endpoint := config.endpoint
    referenceNumber := none
    responseCode := 0
    responsePayload := []
    status := .submitted
    retryEligible := attempt < config.maxRetries
    retryAfter := if 1 < attempt then now + retryDelay config attempt else 0 }

/-- `ingest_acknowledgment` -/
def ingestAcknowledgment (H : Host D) (submission : RegulatorySubmission D)
    (payload referenceNumber : Bytes) (accepted : Bool) (rejectionReason : Bytes)
    (errorCodes : List Bytes) (receivedAt : ℕ) : Except ReportingError (SubmissionAcknowledgment D) :=
  if submission.status ≠ .submitted ∧ submission.status ≠ .acknowledged then
    .error .invalidStatusTransition
  else if referenceNumber = [] then .error .acknowledgmentOrphan
  else .ok {
    id := computeAckId H submission.id receivedAt
    submissionId := submission.id
    reportId := submission.reportId
    referenceNumber, accepted, rejectionReason, errorCodes, receivedAt
    ackHash := H.sha256 payload }

/-- `apply_acknowledgment`: the report afterwards, and what is returned. -/
def applyAcknowledgment (report : RegulatoryReport D) (ack : SubmissionAcknowledgment D) (now : ℕ) :
    RegulatoryReport D × Except ReportingError ReportAction :=
  match checkTransition report.status .acknowledged with
  | .error e => (report, .error e)
  | .ok () =>
    let report := { report with status := .acknowledged, updatedAt := now }
    let (nextStatus, action) : ReportStatus × ReportAction :=
      if ack.accepted then (.accepted, .accepted) else (.rejected, .rejected)
    match checkTransition report.status nextStatus with
    | .error e => (report, .error e)
    | .ok () => ({ report with status := nextStatus, updatedAt := now }, .ok action)

/-- What the functions do that move a report to one status. -/
def moveTo (next : ReportStatus) (report : RegulatoryReport D) (now : ℕ) :
    RegulatoryReport D × Except ReportingError Unit :=
  match checkTransition report.status next with
  | .error e => (report, .error e)
  | .ok () => ({ report with status := next, updatedAt := now }, .ok ())

/-- `mark_overdue` -/
def markOverdue (report : RegulatoryReport D) (now : ℕ) := moveTo .overdue report now

/-- `cancel_report` -/
def cancelReport (report : RegulatoryReport D) (now : ℕ) := moveTo .cancelled report now

/-- `mark_submitted` -/
def markSubmitted (report : RegulatoryReport D) (now : ℕ) := moveTo .submitted report now

/-- `mark_validated` -/
def markValidated (report : RegulatoryReport D) (now : ℕ) := moveTo .validated report now

end

/-! ## The pipeline -/

/-- The reports, the submissions in the order they were created, each with the report it was
    created for, and the acknowledgments, each with the submission it was ingested for. -/
structure Pipeline (ρ D : Type) where
  report : ρ → RegulatoryReport D
  submissions : List (ρ × RegulatorySubmission D)
  acknowledgments : List (RegulatorySubmission D × SubmissionAcknowledgment D)

inductive Op (ρ D : Type) where
  | createSubmission (r : ρ) (attempt : UInt32) (config : AuthorityConfig) (now : ℕ)
  | ingestAcknowledgment (submission : RegulatorySubmission D) (payload referenceNumber : Bytes)
      (accepted : Bool) (rejectionReason : Bytes) (errorCodes : List Bytes) (receivedAt : ℕ)
  | applyAcknowledgment (r : ρ) (ack : SubmissionAcknowledgment D) (now : ℕ)
  | markOverdue (r : ρ) (now : ℕ)
  | cancelReport (r : ρ) (now : ℕ)
  | markSubmitted (r : ρ) (now : ℕ)
  | markValidated (r : ρ) (now : ℕ)

variable {ρ D : Type} [DecidableEq ρ]

/-- The pipeline with another report. -/
def Pipeline.withReport (s : Pipeline ρ D) (r : ρ) (x : RegulatoryReport D) : Pipeline ρ D :=
  { s with report := Function.update s.report r x }

theorem withReport_self (s : Pipeline ρ D) (r : ρ) (x : RegulatoryReport D) :
    (s.withReport r x).report r = x := Function.update_self ..

theorem withReport_of_ne (s : Pipeline ρ D) {r r' : ρ} (x : RegulatoryReport D) (h : r' ≠ r) :
    (s.withReport r x).report r' = s.report r' := Function.update_of_ne h ..

/-- The pipeline after a call, whether it succeeds or not. -/
def next (H : Host D) (s : Pipeline ρ D) : Op ρ D → Pipeline ρ D
  | .createSubmission r n config now =>
    match createSubmission H (s.report r) n config now with
    | .ok x => { s with submissions := s.submissions ++ [(r, x)] }
    | .error _ => s
  | .ingestAcknowledgment x payload ref accepted reason codes t =>
    match ingestAcknowledgment H x payload ref accepted reason codes t with
    | .ok ack => { s with acknowledgments := s.acknowledgments ++ [(x, ack)] }
    | .error _ => s
  | .applyAcknowledgment r ack now => s.withReport r (applyAcknowledgment (s.report r) ack now).1
  | .markOverdue r now => s.withReport r (markOverdue (s.report r) now).1
  | .cancelReport r now => s.withReport r (cancelReport (s.report r) now).1
  | .markSubmitted r now => s.withReport r (markSubmitted (s.report r) now).1
  | .markValidated r now => s.withReport r (markValidated (s.report r) now).1

/-- Acknowledgments are ingested for submissions that were created, and applied once ingested. -/
def Genuine (s : Pipeline ρ D) : Op ρ D → Prop
  | .ingestAcknowledgment x .. => x ∈ s.submissions.map Prod.snd
  | .applyAcknowledgment _ ack _ => ack ∈ s.acknowledgments.map Prod.snd
  | _ => True

instance Genuine.decidable [DecidableEq D] (s : Pipeline ρ D) : (op : Op ρ D) → Decidable (Genuine s op)
  | .ingestAcknowledgment x .. => inferInstanceAs (Decidable (x ∈ s.submissions.map Prod.snd))
  | .applyAcknowledgment _ ack _ => inferInstanceAs (Decidable (ack ∈ s.acknowledgments.map Prod.snd))
  | .createSubmission .. | .markOverdue .. | .cancelReport .. | .markSubmitted .. | .markValidated .. =>
    inferInstanceAs (Decidable True)

/-- One call. -/
def Step (H : Host D) (s : Pipeline ρ D) (op : Op ρ D) (s' : Pipeline ρ D) : Prop :=
  Genuine s op ∧ s' = next H s op

/-- The most recent submission created for a report. -/
def lastSubmission (s : Pipeline ρ D) (r : ρ) : Option (RegulatorySubmission D) :=
  ((s.submissions.filter fun p => p.1 = r).getLast?).map Prod.snd

/-- Nothing has been submitted yet. -/
def Unsubmitted (s : Pipeline ρ D) : Prop := s.submissions = [] ∧ s.acknowledgments = []

/-! ## Effects of the functions -/

section
variable {H : Host D} {report : RegulatoryReport D} {ack : SubmissionAcknowledgment D}
  {x : RegulatorySubmission D} {n : UInt32} {config : AuthorityConfig} {now : ℕ}

/-- **An acknowledgment resolves a submitted report, and leaves any other as it is.** -/
theorem applyAcknowledgment_eq : applyAcknowledgment report ack now =
    if report.status = .submitted then
      if ack.accepted then ({ report with status := .accepted, updatedAt := now }, .ok .accepted)
      else ({ report with status := .rejected, updatedAt := now }, .ok .rejected)
    else (report, .error .invalidStatusTransition) := by
  unfold applyAcknowledgment
  by_cases hs : report.status = .submitted
  · rw [hs]
    cases ack.accepted <;> rfl
  · have hno : checkTransition report.status .acknowledged = .error .invalidStatusTransition := by
      revert hs
      cases report.status <;> decide
    rw [hno, if_neg hs]

theorem moveTo_id {q : ReportStatus} : (moveTo q report now).1.id = report.id := by
  unfold moveTo
  split <;> rfl

theorem applyAcknowledgment_id : (applyAcknowledgment report ack now).1.id = report.id := by
  rw [applyAcknowledgment_eq]
  split_ifs <;> rfl

theorem createSubmission_ok (h : createSubmission H report n config now = .ok x) :
    x.id = computeSubmissionId H report.id n ∧ x.reportId = report.id ∧ x.attempt = n := by
  unfold createSubmission at h
  split_ifs at h <;> cases h <;> exact ⟨rfl, rfl, rfl⟩

theorem ingestAcknowledgment_ok {payload ref reason : Bytes} {accepted : Bool} {codes : List Bytes}
    {t : ℕ} (h : ingestAcknowledgment H x payload ref accepted reason codes t = .ok ack) :
    ack.submissionId = x.id ∧ ack.reportId = x.reportId := by
  unfold ingestAcknowledgment at h
  split_ifs at h
  cases h
  exact ⟨rfl, rfl⟩

/-- The id of a submission determines the attempt. -/
theorem computeSubmissionId_attempt (hinj : Function.Injective H.sha256) {d d' : D} {n n' : UInt32}
    (h : computeSubmissionId H d n = computeSubmissionId H d' n') : n = n' := by
  have hb := (List.append_inj' (hinj h) rfl).2
  exact UInt32.toNat.inj (u32ToBytes_injective (UInt32.toNat_lt n) (UInt32.toNat_lt n') hb)

end

/-! ## Where submissions and acknowledgments come from -/

/-- Submissions and acknowledgments carry the ids of what they were made for. -/
structure Traced (H : Host D) (s : Pipeline ρ D) : Prop where
  submission : ∀ p ∈ s.submissions, p.2.id = computeSubmissionId H p.2.reportId p.2.attempt ∧
    p.2.reportId = (s.report p.1).id
  acknowledgment : ∀ p ∈ s.acknowledgments, p.2.submissionId = p.1.id ∧ p.2.reportId = p.1.reportId ∧
    p.1 ∈ s.submissions.map Prod.snd

section
variable {H : Host D} {s s' : Pipeline ρ D} {op : Op ρ D} {tr : List (Pipeline ρ D × Op ρ D)}

omit [DecidableEq ρ] in
theorem traced_of_unsubmitted (h : Unsubmitted s) : Traced H s where
  submission p hp := by rw [h.1] at hp; cases hp
  acknowledgment p hp := by rw [h.2] at hp; cases hp

/-- No call changes the id of a report. -/
theorem Traced.withReport (h : Traced H s) {r : ρ} {x : RegulatoryReport D} (hid : x.id = (s.report r).id) :
    Traced H (s.withReport r x) where
  submission := by
    intro p hp
    refine ⟨(h.submission p hp).1, (h.submission p hp).2.trans ?_⟩
    by_cases hr : p.1 = r
    · rw [hr, withReport_self, hid]
    · rw [withReport_of_ne _ _ hr]
  acknowledgment := h.acknowledgment

theorem Traced.step (h : Traced H s) (hs : Step H s op s') : Traced H s' := by
  obtain ⟨hgen, rfl⟩ := hs
  cases op with
  | createSubmission r n config now =>
    rw [next]
    split
    · next x hx =>
      obtain ⟨hid, hrep, hatt⟩ := createSubmission_ok hx
      refine ⟨?_, fun p hp => ?_⟩
      · simp only [List.forall_mem_append, List.forall_mem_singleton]
        exact ⟨h.submission, by rw [hid, hrep, hatt], hrep⟩
      · obtain ⟨h₁, h₂, h₃⟩ := h.acknowledgment p hp
        refine ⟨h₁, h₂, ?_⟩
        rw [List.map_append]
        exact List.mem_append_left _ h₃
    · exact h
  | ingestAcknowledgment x payload ref accepted reason codes t =>
    rw [next]
    split
    · next ack hack =>
      obtain ⟨hid, hrep⟩ := ingestAcknowledgment_ok hack
      refine ⟨h.submission, ?_⟩
      simp only [List.forall_mem_append, List.forall_mem_singleton]
      exact ⟨h.acknowledgment, hid, hrep, hgen⟩
    · exact h
  | applyAcknowledgment r ack now => exact h.withReport applyAcknowledgment_id
  | markOverdue r now | cancelReport r now | markSubmitted r now | markValidated r now =>
    exact h.withReport moveTo_id

/-! ## Answers -/

/-- An acknowledgment that is applied answers the last submission of its report; one that is
    refused changes nothing. -/
def Resolves (H : Host D) (s : Pipeline ρ D) (op : Op ρ D) : Prop :=
  ∀ r ack now, op = .applyAcknowledgment r ack now →
    (∀ action, (applyAcknowledgment (s.report r) ack now).2 = .ok action →
      ack.reportId = (s.report r).id ∧ ∃ x, lastSubmission s r = some x ∧ ack.submissionId = x.id) ∧
    ∀ e, (applyAcknowledgment (s.report r) ack now).2 = .error e → (next H s op).report = s.report

/-- What is applied to a submitted report was ingested for a submission of that report, and of the
    same attempt as the last. -/
def AnswersLast (s : Pipeline ρ D) (op : Op ρ D) : Prop :=
  ∀ r ack now, op = .applyAcknowledgment r ack now → (s.report r).status = .submitted →
    ∀ x₀, (x₀, ack) ∈ s.acknowledgments → x₀.reportId = (s.report r).id ∧
      ∃ x, lastSubmission s r = some x ∧ x₀.attempt = x.attempt

theorem mem_of_lastSubmission {r : ρ} {x : RegulatorySubmission D}
    (h : lastSubmission s r = some x) : (r, x) ∈ s.submissions := by
  obtain ⟨p, hp, rfl⟩ := Option.map_eq_some_iff.1 h
  obtain ⟨hmem, hr⟩ := List.mem_filter.1 (List.mem_of_getLast? hp)
  obtain rfl : p.1 = r := by simpa using hr
  exact hmem

/-- In a traced pipeline the ids of an answer are those of the report and its last submission exactly
    when report and attempt are. -/
theorem resolves_iff (hinj : Function.Injective H.sha256) (h : Traced H s) (hgen : Genuine s op) :
    Resolves H s op ↔ AnswersLast s op := by
  refine forall_congr' fun r => forall_congr' fun ack => forall_congr' fun now =>
    forall_congr' fun hop => ?_
  subst hop
  obtain ⟨⟨x₁, a⟩, hx₁, ha⟩ := List.mem_map.1 hgen
  obtain rfl : a = ack := ha
  have hkept : ∀ e, (applyAcknowledgment (s.report r) a now).2 = .error e →
      (next H s (.applyAcknowledgment r a now)).report = s.report := by
    intro e he
    rw [applyAcknowledgment_eq] at he
    split_ifs at he with hs
    rw [next, applyAcknowledgment_eq, if_neg hs]
    exact Function.update_eq_self r s.report
  constructor
  · rintro ⟨hok, -⟩ hs x₀ hx₀
    obtain ⟨hsub, hrep, hmem⟩ := h.acknowledgment _ hx₀
    obtain ⟨p, hp, rfl⟩ := List.mem_map.1 hmem
    have hres : ∃ action, (applyAcknowledgment (s.report r) a now).2 = .ok action := by
      rw [applyAcknowledgment_eq, if_pos hs]
      split_ifs <;> exact ⟨_, rfl⟩
    obtain ⟨action, haction⟩ := hres
    obtain ⟨hid, x, hx, hxid⟩ := hok action haction
    refine ⟨hrep.symm.trans hid, x, hx, ?_⟩
    have hids : computeSubmissionId H p.2.reportId p.2.attempt =
        computeSubmissionId H x.reportId x.attempt := by
      rw [← (h.submission p hp).1, ← (h.submission _ (mem_of_lastSubmission hx)).1, ← hxid, hsub]
    exact computeSubmissionId_attempt hinj hids
  · intro hlast
    refine ⟨fun action haction => ?_, hkept⟩
    have hs : (s.report r).status = .submitted := by
      by_contra hs
      rw [applyAcknowledgment_eq, if_neg hs] at haction
      cases haction
    obtain ⟨hid, x, hx, hatt⟩ := hlast hs x₁ hx₁
    obtain ⟨hsub, hrep, hmem⟩ := h.acknowledgment _ hx₁
    obtain ⟨p, hp, rfl⟩ := List.mem_map.1 hmem
    obtain ⟨hxid, hxrep⟩ := h.submission _ (mem_of_lastSubmission hx)
    refine ⟨hrep.trans hid, x, hx, ?_⟩
    rw [hsub, (h.submission p hp).1, hid, hatt, hxid, hxrep]

/-- **Every report is resolved by the answer to its last submission** if and only if every
    acknowledgment that is applied to a submitted report was ingested for a submission of that report
    with the attempt number of the last. -/
theorem history_resolved (hinj : Function.Injective H.sha256) {s₀ : Pipeline ρ D} (h₀ : Unsubmitted s₀)
    (h : Run (Step H) s₀ tr s) :
    (∀ p ∈ tr, Resolves H p.1 p.2) ↔ ∀ p ∈ tr, AnswersLast p.1 p.2 := by
  have htraced : ∀ p ∈ tr, Traced H p.1 := (h.always (C := fun _ _ => True) (I := Traced H)
    (traced_of_unsubmitted h₀) (fun _ _ _ _ hs ht => ht.step hs) fun _ _ => trivial).1
  refine forall₂_congr fun p hp => ?_
  obtain ⟨_, hgen, -⟩ := h.step_of_mem hp
  exact resolves_iff hinj (htraced p hp) hgen

/-! ## Scripts -/

/-- The trace of a list of calls. -/
def callsFrom (H : Host D) (s : Pipeline ρ D) : List (Op ρ D) → List (Pipeline ρ D × Op ρ D)
  | [] => []
  | op :: ops => (s, op) :: callsFrom H (next H s op) ops

/-- Genuine calls are a run. -/
theorem run_callsFrom {ops : List (Op ρ D)} (h : ∀ p ∈ callsFrom H s ops, Genuine p.1 p.2) :
    Run (Step H) s (callsFrom H s ops) (ops.foldl (next H) s) := by
  induction ops generalizing s with
  | nil => exact .init
  | cons op ops ih =>
    rw [callsFrom, List.forall_mem_cons] at h
    exact Run.append (.snoc .init ⟨h.1, rfl⟩) (ih h.2)

end

/-- Two validated reports, and nothing submitted. -/
def twoReports : Pipeline Bool Bytes where
  report r := ⟨[if r then 1 else 0], 5000, .validated, 0⟩
  submissions := []
  acknowledgments := []

/-- The configuration of an authority. -/
def openAuthority : AuthorityConfig := ⟨true, [], 3, 60, true⟩

/-- The first submission of a report at time 10. -/
def firstSubmission (r : Bool) : RegulatorySubmission Bytes where
  id := computeSubmissionId plainHost [if r then 1 else 0] 1
  reportId := [if r then 1 else 0]
  attempt := 1
  submittedAt := 10
  endpoint := []
  referenceNumber := none
  responseCode := 0
  responsePayload := []
  status := .submitted
  retryEligible := true
  retryAfter := 0

/-- Its acceptance at time 20. -/
def acceptance (r : Bool) : SubmissionAcknowledgment Bytes where
  id := computeAckId plainHost (firstSubmission r).id 20
  submissionId := (firstSubmission r).id
  reportId := [if r then 1 else 0]
  referenceNumber := [7]
  accepted := true
  rejectionReason := []
  errorCodes := []
  receivedAt := 20
  ackHash := []

/-- Both reports are submitted, one is accepted, and the acceptance is applied to `r`. -/
def answeredScript (r : Bool) : List (Op Bool Bytes) :=
  [.createSubmission true 1 openAuthority 10, .markSubmitted true 10,
    .createSubmission false 1 openAuthority 10, .markSubmitted false 10,
    .ingestAcknowledgment (firstSubmission true) [] [7] true [] [] 20,
    .applyAcknowledgment r (acceptance true) 30]

theorem run_answeredScript (r : Bool) : Run (Step plainHost) twoReports
    (callsFrom plainHost twoReports (answeredScript r))
    ((answeredScript r).foldl (next plainHost) twoReports) := by
  refine run_callsFrom ?_
  cases r <;> decide

/-- The pipeline when the acceptance is applied. -/
def answered : Pipeline Bool Bytes := ((answeredScript true).take 5).foldl (next plainHost) twoReports

/-- The acceptance resolves the report it is for. -/
theorem history_resolved_answeredScript :
    ∃ tr s, Run (Step plainHost) twoReports tr s ∧ (s.report true).status = .accepted ∧
      ∀ p ∈ tr, Resolves plainHost p.1 p.2 := by
  refine ⟨_, _, run_answeredScript true, by decide, ?_⟩
  refine (history_resolved Function.injective_id ⟨rfl, rfl⟩ (run_answeredScript true)).2 ?_
  have hacks : answered.acknowledgments = [(firstSubmission true, acceptance true)] := by decide
  have hlast : lastSubmission answered true = some (firstSubmission true) := by decide
  have hid : (answered.report true).id = [1] := by decide
  intro p hp r ack now hop hs x₀ hx₀
  simp only [callsFrom, answeredScript, List.mem_cons, List.not_mem_nil, or_false] at hp
  rcases hp with rfl | rfl | rfl | rfl | rfl | rfl
  · cases hop
  · cases hop
  · cases hop
  · cases hop
  · cases hop
  · cases hop
    have hx₀ : (x₀, acceptance true) ∈ answered.acknowledgments := hx₀
    rw [hacks, List.mem_singleton, Prod.mk.injEq] at hx₀
    obtain ⟨rfl, -⟩ := hx₀
    exact ⟨hid.symm, firstSubmission true, hlast, rfl⟩

/-- **A report can be accepted on the answer to another.** -/
theorem foreign_acknowledgment_applied :
    ∃ tr s, Run (Step plainHost) twoReports tr s ∧ Unsubmitted twoReports ∧
      (s.report false).status = .accepted ∧ ¬∀ p ∈ tr, Resolves plainHost p.1 p.2 := by
  refine ⟨_, _, run_answeredScript false, ⟨rfl, rfl⟩, by decide, fun hall => ?_⟩
  have hmem : (answered, Op.applyAcknowledgment false (acceptance true) 30) ∈
      callsFrom plainHost twoReports (answeredScript false) := by
    simp only [callsFrom, answeredScript, List.mem_cons]
    exact .inr (.inr (.inr (.inr (.inr (.inl rfl)))))
  have happlied : (applyAcknowledgment (answered.report false) (acceptance true) 30).2 = .ok .accepted := by
    rw [applyAcknowledgment_eq, if_pos (by decide)]
    rfl
  obtain ⟨hid, -⟩ := (hall _ hmem _ _ _ rfl).1 _ happlied
  revert hid
  decide

end RegulatoryReporting
