/-
  Relayer — no event is lost.

  Between polls an event is in the collector, on the chain or in the dead letter queue.  It is lost
  where its transformation or its proof fails, and where the recovery manager decides on a retry:
  the decision is logged, and nothing keeps the event (`not_retried`).

  * `Kept`: the events that were fetched are there, each once;
  * `run_custody`: every event is in one place in every run in which proofs and transformations
    succeed, no submission ends with an error that calls for a retry, and no event comes back
    after the dedup set has forgotten it.
-/
import AuditTransparency.Relayer.Loop

namespace Relayer

open Soroban (Run)

variable {C : Config} {A : Answers} {s s' : State} {tr : List (State × Answers)} {h : Text} {k : ℕ}
  {events : List AuditEvent} {e : AuditEvent}

/-! ## Places -/

/-- The events in the collector, on the chain and in the dead letter queue. -/
def State.entries (s : State) : List AuditEvent := s.pending ++ s.submitted ++ s.deadLetters

/-- How often the list has an event with this hash. -/
def occurrences (h : Text) (events : List AuditEvent) : ℕ := events.countP fun e => e.eventHash = h

/-- The events that a poll submits. -/
def batch (C : Config) (p : State × Answers) : List AuditEvent :=
  let s := collectPoll C p.2 p.1
  if batchReady C p.2 s then s.pending else []

/-- The event waits for a retry that will be made: though it is not in the collector, the relayer will submit it
    without fetching it again. -/
def Retried (C : Config) (s : State) (h : Text) : Prop :=
  occurrences h s.pending = 0 ∧ ∃ tr s', Run (Steps C) s tr s' ∧ (∀ p ∈ tr, fetched C p.2 = []) ∧
    ∃ p ∈ tr, occurrences h (batch C p) ≠ 0

/-- The event is in one place only. -/
def InOnePlace (C : Config) (s : State) (h : Text) : Prop :=
  occurrences h s.entries = 1 ∧ ¬Retried C s h ∨ occurrences h s.entries = 0 ∧ Retried C s h

/-- The hashes of the events that were fetched and have passed the filter. -/
def known (C : Config) (tr : List (State × Answers)) : List Text :=
  tr.flatMap fun p => (fetched C p.2).map AuditEvent.eventHash

/-- As long as the dead letter queue has not exceeded its capacity, every event is in one place. -/
def Custody (C : Config) (tr : List (State × Answers)) (s : State) : Prop :=
  s.shifted = [] → ∀ h ∈ known C tr, InOnePlace C s h

/-! ## Conditions -/

/-- No event that was fetched `earlier` comes back after the dedup set has forgotten it. -/
def Remembered (maxDedupSize : ℕ) : List Text → List Text → List AuditEvent → Prop
  | _, _, [] => True
  | earlier, submittedEvents, event :: events =>
    (event.eventHash ∈ earlier → event.eventHash ∈ submittedEvents) ∧
      Remembered maxDedupSize (event.eventHash :: earlier)
        (isDuplicate maxDedupSize submittedEvents event.eventHash).2 events

/-- The events that are not duplicates. -/
def admitted (maxDedupSize : ℕ) : List Text → List AuditEvent → List AuditEvent
  | _, [] => []
  | submittedEvents, event :: events =>
    let (duplicate, submittedEvents) := isDuplicate maxDedupSize submittedEvents event.eventHash
    if duplicate then admitted maxDedupSize submittedEvents events
    else event :: admitted maxDedupSize submittedEvents events

/-- The submission returns, or ends with an error that does not call for a retry. -/
def Conclusive : Except Text Unit → Prop
  | .ok _ => True
  | .error err => (classifyError err).retryable = false

structure Handled (C : Config) (tr : List (State × Answers)) (p : State × Answers) : Prop where
  remembered : Remembered C.maxDedupSize (known C tr) p.1.submittedEvents (fetched C p.2)
  transformed : ∀ e ∈ admitted C.maxDedupSize p.1.submittedEvents (fetched C p.2),
    (C.transformer.transformEvent e).success = true
  built : ∀ entry ∈ (generateBatchProofs C p.2 0 (batch C p) p.1.proofCache).1, entry.proof.isSome = true
  submitted : ∀ k < (batch C p).length, Conclusive (p.2.submitToEvm k)

instance decidableRemembered (maxDedupSize : ℕ) : ∀ earlier submittedEvents events,
    Decidable (Remembered maxDedupSize earlier submittedEvents events)
  | _, _, [] => .isTrue trivial
  | earlier, submittedEvents, event :: events =>
    have := decidableRemembered maxDedupSize (event.eventHash :: earlier)
      (isDuplicate maxDedupSize submittedEvents event.eventHash).2 events
    instDecidableAnd

instance : ∀ answer, Decidable (Conclusive answer)
  | .ok _ => .isTrue trivial
  | .error err => inferInstanceAs (Decidable ((classifyError err).retryable = false))

/-! ## Collecting -/

theorem isDuplicate_subset {maxDedupSize : ℕ} {l : List Text} {g : Text}
    (hg : g ∈ (isDuplicate maxDedupSize l h).2) : g ∈ l ∨ g = h := by
  rw [isDuplicate] at hg
  split_ifs at hg with hmem hfull
  · exact .inl hg
  · rcases List.mem_append.1 hg with hg | hg
    · exact .inl (List.mem_of_mem_drop hg)
    · exact .inr (List.mem_singleton.1 hg)
  · rcases List.mem_append.1 hg with hg | hg
    · exact .inl hg
    · exact .inr (List.mem_singleton.1 hg)

theorem isDuplicate_iff {maxDedupSize : ℕ} {l : List Text} :
    (isDuplicate maxDedupSize l h).1 = true ↔ h ∈ l := by
  rw [isDuplicate]
  split_ifs with hmem <;> simp [hmem]

/-- What collecting leaves as it is. -/
structure Collects (s s' : State) : Prop where
  proofCache : s'.proofCache = s.proofCache
  errorRecoveryManager : s'.errorRecoveryManager = s.errorRecoveryManager
  submitted : s'.submitted = s.submitted
  shifted : s'.shifted = s.shifted

theorem collectFrom_spec (C : Config) (A : Answers) (k : ℕ) (events : List AuditEvent) (s : State) :
    Collects s (collectFrom C A k events s) ∧
      ∀ g ∈ (collectFrom C A k events s).submittedEvents,
        g ∈ s.submittedEvents ∨ g ∈ events.map AuditEvent.eventHash := by
  induction events generalizing k s with
  | nil => exact ⟨⟨rfl, rfl, rfl, rfl⟩, fun g hg => .inl hg⟩
  | cons event events ih =>
    have hlater {s₁ : State} (hs : Collects s s₁)
        (hset : s₁.submittedEvents = (isDuplicate C.maxDedupSize s.submittedEvents event.eventHash).2) :
        Collects s (collectFrom C A (k + 1) events s₁) ∧
          ∀ g ∈ (collectFrom C A (k + 1) events s₁).submittedEvents,
            g ∈ s.submittedEvents ∨ g ∈ (event :: events).map AuditEvent.eventHash := by
      obtain ⟨hkept, hsub⟩ := ih (k + 1) s₁
      refine ⟨⟨hkept.1.trans hs.1, hkept.2.trans hs.2, hkept.3.trans hs.3, hkept.4.trans hs.4⟩,
        fun g hg => ?_⟩
      rcases hsub g hg with hg | hg
      · rw [hset] at hg
        rcases isDuplicate_subset hg with hg | rfl
        · exact .inl hg
        · exact .inr List.mem_cons_self
      · exact .inr (List.mem_cons_of_mem _ hg)
    simp only [collectFrom]
    split_ifs
    · exact hlater ⟨rfl, rfl, rfl, rfl⟩ rfl
    · exact hlater ⟨rfl, rfl, rfl, rfl⟩ rfl
    · exact hlater ⟨rfl, rfl, rfl, rfl⟩ rfl

/-- The events that are not duplicates are collected. -/
theorem pending_collectFrom
    (htrans : ∀ e ∈ admitted C.maxDedupSize s.submittedEvents events,
      (C.transformer.transformEvent e).success = true) :
    (collectFrom C A k events s).pending = s.pending ++ admitted C.maxDedupSize s.submittedEvents events := by
  induction events generalizing k s with
  | nil => exact (List.append_nil _).symm
  | cons event events ih =>
    rw [admitted] at htrans ⊢
    simp only [collectFrom]
    cases hdup : (isDuplicate C.maxDedupSize s.submittedEvents event.eventHash).1 with
    | true =>
      simp only [hdup, if_true] at htrans ⊢
      exact ih (s := State.advance { s with submittedEvents := _ } event) htrans
    | false =>
      simp only [hdup, Bool.false_eq_true, if_false, List.forall_mem_cons] at htrans ⊢
      rw [if_pos htrans.1, ih htrans.2]
      exact List.append_assoc ..

/-- Each new hash is collected once. -/
theorem occurrences_admitted {maxDedupSize : ℕ} {earlier l : List Text}
    (hrem : Remembered maxDedupSize earlier l events) (hl : ∀ g ∈ l, g ∈ earlier) :
    occurrences h (admitted maxDedupSize l events) =
      if h ∈ events.map AuditEvent.eventHash ∧ h ∉ earlier then 1 else 0 := by
  induction events generalizing earlier l with
  | nil => rfl
  | cons event events ih =>
    obtain ⟨hback, hrem⟩ := hrem
    have hsub : ∀ g ∈ (isDuplicate maxDedupSize l event.eventHash).2, g ∈ event.eventHash :: earlier := by
      intro g hg
      rcases isDuplicate_subset hg with hg | rfl
      · exact List.mem_cons_of_mem _ (hl g hg)
      · exact List.mem_cons_self
    have hrest := ih hrem hsub
    rw [admitted]
    by_cases hmem : event.eventHash ∈ l
    · have hearlier := hl _ hmem
      simp only [isDuplicate_iff.2 hmem, if_true]
      rw [hrest]
      by_cases hh : h = event.eventHash
      · simp [hh, hearlier]
      · simp [hh]
    · have hnew : event.eventHash ∉ earlier := fun hearlier => hmem (hback hearlier)
      have hdup : (isDuplicate maxDedupSize l event.eventHash).1 = false := by
        rw [← Bool.not_eq_true, isDuplicate_iff]
        exact hmem
      simp only [hdup, Bool.false_eq_true, if_false]
      rw [occurrences, List.countP_cons, ← occurrences, hrest]
      by_cases hh : h = event.eventHash
      · simp [hh, hnew]
      · simp [hh, Ne.symm hh]

/-! ## Submitting -/

theorem occurrences_append {l l' : List AuditEvent} :
    occurrences h (l ++ l') = occurrences h l + occurrences h l' :=
  List.countP_append

theorem map_event_generateBatchProofs {cache : ProofCache} :
    (generateBatchProofs C A k events cache).1.map BatchProofEntry.event = events := by
  induction events generalizing k cache with
  | nil => rfl
  | cons event events ih =>
    simp only [generateBatchProofs, List.map_cons]
    rw [ih]

/-- A submission leaves the collector as it is. -/
theorem batchProcessor_submitBatchEntry {event : AuditEvent} :
    (submitBatchEntry C A k event s).2.batchProcessor = s.batchProcessor ∧
      (submitBatchEntry C A k event s).2.submittedEvents = s.submittedEvents := by
  rw [submitBatchEntry]
  split_ifs
  · cases A.submitToEvm k with
    | ok _ => exact ⟨rfl, rfl⟩
    | error _ => exact ⟨rfl, rfl⟩
  · exact ⟨rfl, rfl⟩

theorem batchProcessor_submitFrom {entries : List BatchProofEntry} :
    (submitFrom C A k entries s).2.batchProcessor = s.batchProcessor ∧
      (submitFrom C A k entries s).2.submittedEvents = s.submittedEvents := by
  induction entries generalizing k s with
  | nil => exact ⟨rfl, rfl⟩
  | cons entry entries ih =>
    rw [submitFrom]
    cases entry.proof with
    | none => exact ih
    | some proof =>
      exact ⟨ih.1.trans batchProcessor_submitBatchEntry.1, ih.2.trans batchProcessor_submitBatchEntry.2⟩

/-- Where the events are once they have left the collector. -/
def State.settled (s : State) : List AuditEvent := s.submitted ++ s.deadLetters ++ s.shifted

theorem submitBatchEntry_ok {event : AuditEvent}
    (htrans : (C.transformer.transformEvent event).success = true)
    (hk : A.submitToEvm k = .ok ()) : (submitBatchEntry C A k event s).2 = { s with
      errorRecoveryManager := s.errorRecoveryManager.resolved event.eventHash
      submitted := s.submitted ++ [event] } := by
  rw [submitBatchEntry, if_pos htrans, hk]

theorem submitBatchEntry_error {event : AuditEvent} {err : Text}
    (htrans : (C.transformer.transformEvent event).success = true) (hk : A.submitToEvm k = .error err) :
    ∃ r, s.errorRecoveryManager.handle event.eventHash event err (A.failedAt k) = r ∧
      (submitBatchEntry C A k event s).2 = { s with
        errorRecoveryManager := r.2.1
        shifted := s.shifted ++ (r.2.2.map DeadLetterEntry.item).toList } := by
  refine ⟨_, rfl, ?_⟩
  rw [submitBatchEntry, if_pos htrans, hk]

/-- The event is on the chain or in the dead letter queue, and has shifted at most one out of it. -/
theorem occurrences_submitBatchEntry {event : AuditEvent}
    (htrans : (C.transformer.transformEvent event).success = true) (hanswer : Conclusive (A.submitToEvm k)) :
    occurrences h (submitBatchEntry C A k event s).2.settled =
      occurrences h s.settled + occurrences h [event] := by
  cases hk : A.submitToEvm k with
  | ok _ =>
    rw [submitBatchEntry_ok htrans hk]
    simp only [State.settled, State.deadLetters, ErrorRecoveryManager.resolved, occurrences_append]
    omega
  | error err =>
    rw [hk] at hanswer
    obtain ⟨r, hr, hs⟩ := submitBatchEntry_error (s := s) htrans hk
    have hcount := congrArg (occurrences h)
      (s.errorRecoveryManager.handle_items event.eventHash event (A.failedAt k) hanswer)
    rw [hr, List.map_append, ← Option.toList_map, occurrences_append, occurrences_append] at hcount
    rw [hs]
    simp only [State.settled, State.deadLetters, occurrences_append]
    omega

theorem occurrences_submitFrom {entries : List BatchProofEntry}
    (hbuilt : ∀ entry ∈ entries, entry.proof.isSome = true)
    (htrans : ∀ entry ∈ entries, (C.transformer.transformEvent entry.event).success = true)
    (hanswers : ∀ i < entries.length, Conclusive (A.submitToEvm (k + i))) :
    occurrences h (submitFrom C A k entries s).2.settled =
      occurrences h s.settled + occurrences h (entries.map BatchProofEntry.event) := by
  induction entries generalizing k s with
  | nil => rfl
  | cons entry entries ih =>
    obtain ⟨hproof, hbuilt⟩ := List.forall_mem_cons.1 hbuilt
    obtain ⟨hentry, htrans⟩ := List.forall_mem_cons.1 htrans
    obtain ⟨proof, hproof⟩ := Option.isSome_iff_exists.1 hproof
    have hfirst : Conclusive (A.submitToEvm k) := hanswers 0 (Nat.zero_lt_succ _)
    have hrest : ∀ i < entries.length, Conclusive (A.submitToEvm (k + 1 + i)) := by
      intro i hi
      rw [Nat.add_assoc, Nat.add_comm 1]
      exact hanswers (i + 1) (Nat.succ_lt_succ hi)
    rw [submitFrom, hproof]
    have hcons : occurrences h (entry.event :: entries.map BatchProofEntry.event) =
        occurrences h [entry.event] + occurrences h (entries.map BatchProofEntry.event) :=
      occurrences_append (l := [entry.event])
    rw [ih hbuilt htrans hrest, occurrences_submitBatchEntry hentry hfirst, List.map_cons, hcons]
    omega

/-- What a batch leaves, whatever becomes of its events. -/
theorem pending_processBatch :
    (processBatch C A s).2.pending = [] ∧ (processBatch C A s).2.submittedEvents = s.submittedEvents := by
  rw [processBatch]
  by_cases hempty : s.pending = []
  · rw [if_pos hempty]
    exact ⟨rfl, rfl⟩
  · rw [if_neg hempty]
    constructor
    · exact congrArg (fun p => p.collector.pending) batchProcessor_submitFrom.1
    · exact batchProcessor_submitFrom.2

theorem occurrences_processBatch
    (hbuilt : ∀ entry ∈ (generateBatchProofs C A 0 s.pending s.proofCache).1, entry.proof.isSome = true)
    (htrans : ∀ e ∈ s.pending, (C.transformer.transformEvent e).success = true)
    (hanswers : ∀ k < s.pending.length, Conclusive (A.submitToEvm k)) :
    occurrences h (processBatch C A s).2.settled = occurrences h s.settled + occurrences h s.pending := by
  rw [processBatch]
  by_cases hempty : s.pending = []
  · rw [if_pos hempty, hempty]
    rfl
  · rw [if_neg hempty]
    have hevents : (generateBatchProofs C A 0 s.pending s.proofCache).1.map
        BatchProofEntry.event = s.pending :=
      map_event_generateBatchProofs
    have hentries : ∀ entry ∈ (generateBatchProofs C A 0 s.pending s.proofCache).1,
        (C.transformer.transformEvent entry.event).success = true := by
      intro entry hentry
      refine htrans entry.event ?_
      rw [← hevents]
      exact List.mem_map_of_mem hentry
    have hlength : (generateBatchProofs C A 0 s.pending s.proofCache).1.length = s.pending.length := by
      rw [← List.length_map BatchProofEntry.event, hevents]
    have hsubmit (s₁ : State) := occurrences_submitFrom (h := h) (s := s₁) (A := A) (k := 0) hbuilt hentries
      (fun i hi => by rw [Nat.zero_add]; exact hanswers i (hlength ▸ hi))
    rw [hevents] at hsubmit
    exact hsubmit { s.flush with proofCache := _ }

/-! ## Polls -/

theorem collectPoll_eq (C : Config) (A : Answers) (s : State) :
    ∃ n, collectPoll C A s = collectFrom C A 0 (fetched C A) { s with pollsWithoutEvents := n } := by
  rw [collectPoll, fetched]
  cases A.fetchLatestEvents with
  | ok rawEvents => exact ⟨_, rfl⟩
  | error _ => exact ⟨s.pollsWithoutEvents, rfl⟩

/-- Polls that fetch nothing submit what is in the collector, and collect nothing. -/
theorem poll_idle (hidle : fetched C A = []) :
    (batch C (s, A) = [] ∨ batch C (s, A) = s.pending) ∧
      ((poll C A s).pending = [] ∨ (poll C A s).pending = s.pending) := by
  obtain ⟨n, hcollect⟩ := collectPoll_eq C A s
  rw [hidle, collectFrom] at hcollect
  simp only [batch, poll, hcollect]
  split_ifs
  · exact ⟨.inr rfl, .inl pending_processBatch.1⟩
  · exact ⟨.inl rfl, .inr rfl⟩

/-- **No retry is ever made.** -/
theorem not_retried : ¬Retried C s h := by
  rintro ⟨hpending, tr, s', hrun, hidle, p, hp, hbatch⟩
  have hempty : (∀ p ∈ tr, occurrences h p.1.pending = 0) ∧ occurrences h s'.pending = 0 := by
    refine hrun.always (C := fun _ A => fetched C A = []) (I := fun s => occurrences h s.pending = 0) hpending
      (fun s A s' hidle hs hI => ?_) hidle
    rw [← hs]
    rcases (poll_idle hidle).2 with hnone | hsame
    · rw [hnone]
      rfl
    · rw [hsame]
      exact hI
  rcases (poll_idle (hidle p hp)).1 with hnone | hsame
  · exact hbatch (by rw [hnone]; rfl)
  · exact hbatch (by rw [hsame]; exact hempty.1 p hp)

/-! ## Runs -/

/-- The events that were fetched are there, each once. -/
structure Kept (C : Config) (tr : List (State × Answers)) (s : State) : Prop where
  once : ∀ h, occurrences h s.pending + occurrences h s.settled = if h ∈ known C tr then 1 else 0
  registered : ∀ g ∈ s.submittedEvents, g ∈ known C tr
  transformed : ∀ e ∈ s.pending, (C.transformer.transformEvent e).success = true

theorem kept_new (C : Config) : Kept C [] {} where
  once _ := rfl
  registered := nofun
  transformed := nofun

theorem known_concat : known C (tr ++ [(s, A)]) = known C tr ++ (fetched C A).map AuditEvent.eventHash := by
  rw [known, List.flatMap_append, List.flatMap_singleton]
  rfl

/-- The events of a poll are collected. -/
theorem Kept.collect (hkept : Kept C tr s) (hC : Handled C tr (s, A)) :
    Kept C (tr ++ [(s, A)]) (collectPoll C A s) := by
  obtain ⟨n, hcollect⟩ := collectPoll_eq C A s
  have hspec := collectFrom_spec C A 0 (fetched C A) { s with pollsWithoutEvents := n }
  have hpending :=
    pending_collectFrom (A := A) (k := 0) (s := { s with pollsWithoutEvents := n }) hC.transformed
  rw [← hcollect] at hspec hpending
  obtain ⟨⟨-, hmanager, hsubmitted, hshifted⟩, hset⟩ := hspec
  have hsettled : (collectPoll C A s).settled = s.settled := by
    rw [State.settled, State.deadLetters, hsubmitted, hmanager, hshifted]
    rfl
  refine ⟨fun h => ?_, fun g hg => ?_, fun e he => ?_⟩
  · have honce := hkept.once h
    have hnew := occurrences_admitted (h := h) hC.remembered hkept.registered
    rw [hpending, occurrences_append, hnew, hsettled, known_concat]
    simp only [List.mem_append]
    by_cases hold : h ∈ known C tr
    · simp only [hold, if_true, not_true_eq_false, and_false, if_false, true_or] at honce ⊢
      exact honce
    · simp only [hold, if_false, not_false_eq_true, and_true, false_or] at honce ⊢
      change occurrences h s.pending + _ + _ = _
      omega
  · rw [known_concat, List.mem_append]
    exact (hset g hg).imp_left (hkept.registered g)
  · rw [hpending] at he
    rcases List.mem_append.1 he with he | he
    · exact hkept.transformed e he
    · exact hC.transformed e he

/-- **Step.** -/
theorem kept_step (hC : Handled C tr (s, A)) (hs : Steps C s A s') (hkept : Kept C tr s) :
    Kept C (tr ++ [(s, A)]) s' := by
  have hcollected := hkept.collect hC
  rw [← hs, poll]
  by_cases hready : batchReady C A (collectPoll C A s) = true
  · rw [if_pos hready]
    have hbatch : batch C (s, A) = (collectPoll C A s).pending := if_pos hready
    have hcache : (collectPoll C A s).proofCache = s.proofCache := by
      obtain ⟨n, hcollect⟩ := collectPoll_eq C A s
      rw [hcollect, (collectFrom_spec ..).1.proofCache]
    have hbuilt := hC.built
    have hanswers := hC.submitted
    rw [hbatch] at hbuilt hanswers
    rw [← hcache] at hbuilt
    refine ⟨fun h => ?_, ?_, ?_⟩
    · have honce := hcollected.once h
      have hmoved := occurrences_processBatch (A := A) (h := h) hbuilt hcollected.transformed hanswers
      have hnone : occurrences h (processBatch C A (collectPoll C A s)).2.pending = 0 := by
        rw [pending_processBatch.1]
        rfl
      omega
    · rw [pending_processBatch.2]
      exact hcollected.registered
    · rw [pending_processBatch.1]
      exact nofun
  · rw [if_neg hready]
    exact hcollected

theorem Kept.custody (hkept : Kept C tr s) : Custody C tr s := by
  intro hshifted h hh
  refine .inl ⟨?_, not_retried⟩
  have honce := hkept.once h
  rw [if_pos hh, State.settled, hshifted, List.append_nil] at honce
  rw [State.entries, List.append_assoc, occurrences_append]
  exact honce

/-- **No event is lost** in a run in which proofs and transformations succeed, no submission ends with an error
    that calls for a retry, and no event comes back after the dedup set has forgotten it. -/
theorem run_custody (hrun : Run (Steps C) {} tr s)
    (hC : ∀ before p after, tr = before ++ p :: after → Handled C before p) :
    (∀ before p after, tr = before ++ p :: after → Custody C before p.1) ∧ Custody C tr s := by
  have hkept : (∀ before p after, tr = before ++ p :: after → Custody C before p.1) ∧ Kept C tr s := by
    induction hrun with
    | init => exact ⟨by simp, kept_new C⟩
    | @snoc tr s s' A _ hs ih =>
      rw [Run.forall_cut_concat (P := Handled C)] at hC
      rw [Run.forall_cut_concat (P := fun before p => Custody C before p.1)]
      obtain ⟨htr, hkept⟩ := ih hC.1
      exact ⟨⟨htr, hkept.custody⟩, kept_step hC.2 hs hkept⟩
  exact ⟨hkept.1, hkept.2.custody⟩

/-! ## A retry that nobody makes -/

def eventOf (eventHash : Text) : AuditEvent := ⟨some 1, some 1, ['t'], ['s'], [], eventHash, some 1, ['0']⟩

/-- A poll at a time, with these answers to its submissions. -/
def pollAt (now : ℕ) (events : List AuditEvent) (submitToEvm : ℕ → Except Text Unit) : Answers :=
  ⟨.ok events, fun _ => some ⟨1, [], some 1, [], []⟩, submitToEvm, fun _ => now, now, fun _ => now,
    fun _ => now⟩

/-- An event is fetched. -/
def fetchingPoll : Answers := pollAt 0 [eventOf ['a']] fun _ => .ok ()

/-- Its submission fails on the network. -/
def refusedPoll : Answers := pollAt 10000 [] fun _ => .error "connect ECONNREFUSED".toList

/-- A retry was decided on, and the event is nowhere. -/
theorem event_lost : ∃ s tr, Run (Steps {}) {} tr s ∧ tr.map Prod.snd = [fetchingPoll, refusedPoll] ∧
    known {} tr = [['a']] ∧ s.errorRecoveryManager.planner.attemptsFor ['a'] = 1 ∧ s.entries = [] ∧
      s.shifted = [] ∧ ¬Custody {} tr s := by
  have hrun : Run (Steps {}) {} [({}, fetchingPoll), (poll {} fetchingPoll {}, refusedPoll)]
      (poll {} refusedPoll (poll {} fetchingPoll {})) := .snoc (.snoc .init rfl) rfl
  refine ⟨_, _, hrun, rfl, rfl, by decide, by decide, by decide, fun h => ?_⟩
  rcases h (by decide) ['a'] (by decide) with ⟨hone, -⟩ | ⟨-, hretried⟩
  · exact absurd hone (by decide)
  · exact not_retried hretried

/-- Batches of two. -/
def pairConfig : Config := { batchMaxSize := 2 }

/-- Two events are submitted, and the second is reverted. -/
def revertedPoll : Answers := pollAt 0 [eventOf ['a'], eventOf ['b'], eventOf ['a']]
  fun k => if k = 0 then .ok () else .error "execution reverted".toList

/-- A third is fetched. -/
def laterPoll : Answers := pollAt 5000 [eventOf ['b'], eventOf ['c']] fun _ => .ok ()

theorem run_custody_revertedPoll : ∃ s tr, Run (Steps pairConfig) {} tr s ∧
    tr.map Prod.snd = [revertedPoll, laterPoll] ∧ s.submitted = [eventOf ['a']] ∧
      s.deadLetters = [eventOf ['b']] ∧ s.pending = [eventOf ['c']] ∧ Custody pairConfig tr s := by
  have hrun : Run (Steps pairConfig) {} [({}, revertedPoll), (poll pairConfig revertedPoll {}, laterPoll)]
      (poll pairConfig laterPoll (poll pairConfig revertedPoll {})) := .snoc (.snoc .init rfl) rfl
  have hfirst : Handled pairConfig [] ({}, revertedPoll) :=
    ⟨by decide, fun e _ => EventTransformer.transformEvent_success rfl e, by decide, by decide⟩
  have hsecond : Handled pairConfig [({}, revertedPoll)] (poll pairConfig revertedPoll {}, laterPoll) :=
    ⟨by decide, fun e _ => EventTransformer.transformEvent_success rfl e, by decide, by decide⟩
  refine ⟨_, _, hrun, rfl, by decide, by decide, by decide, (run_custody hrun ?_).2⟩
  exact Run.forall_cut_cons.2 ⟨hfirst, Run.forall_cut_cons.2 ⟨hsecond, by simp⟩⟩

end Relayer
