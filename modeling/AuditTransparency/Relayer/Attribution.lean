/-
  CrossChainSynchronizer — conflicts and the chains they belong to.

  A conflict is found for the chain of a synchronisation, listed for a chain, and resolved by
  chain and event.  It is stored with chain 0, which the caller was to replace and does not, so
  the chain that has the conflict does not list it.

  * `run_attributed`: conflicts are found and resolved per chain in exactly the runs where only
    chain 0 has any, and where a conflict is resolved before its repetitions.
-/
import AuditTransparency.Relayer.Synchronizer
import AuditTransparency.Soroban.Run

namespace CrossChainSynchronizer

open Soroban (Run)

/-! ## The first element that satisfies a condition -/

section
variable {α : Type} {p q : α → Bool} {f : α → α} {l : List α} {i : ℕ} {a b : α}

/-- Changing the first match so that it is filtered out erases it. -/
theorem filter_modify_eq_eraseP (hpq : ∀ x, p x → q x) (hf : ∀ x, p x → q (f x) = false)
    (hi : l.findIdx? p = some i) : (l.modify i f).filter q = (l.filter q).eraseP p := by
  induction l generalizing i with
  | nil => cases hi
  | cons x l ih =>
    rw [List.findIdx?_cons] at hi
    split_ifs at hi with hx
    · obtain rfl := Option.some.inj hi
      rw [List.modify_zero_cons, List.filter_cons_of_neg (by rw [hf x hx]; exact Bool.false_ne_true),
        List.filter_cons_of_pos (hpq x hx), List.eraseP_cons_of_pos hx]
    · obtain ⟨j, hj, rfl⟩ := Option.map_eq_some_iff.1 hi
      rw [List.modify_succ_cons]
      rcases hq : q x with _ | _
      · rw [List.filter_cons_of_neg (by rw [hq]; exact Bool.false_ne_true), ih hj,
          List.filter_cons_of_neg (by rw [hq]; exact Bool.false_ne_true)]
      · rw [List.filter_cons_of_pos hq, ih hj, List.filter_cons_of_pos hq, List.eraseP_cons_of_neg hx]

/-- Changing the first match is not seen where it is filtered out before and after. -/
theorem filter_modify_eq_self (hp : ∀ x, p x → q x = false) (hf : ∀ x, p x → q (f x) = false)
    (hi : l.findIdx? p = some i) : (l.modify i f).filter q = l.filter q := by
  induction l generalizing i with
  | nil => cases hi
  | cons x l ih =>
    rw [List.findIdx?_cons] at hi
    split_ifs at hi with hx
    · obtain rfl := Option.some.inj hi
      rw [List.modify_zero_cons, List.filter_cons_of_neg (by rw [hf x hx]; exact Bool.false_ne_true),
        List.filter_cons_of_neg (by rw [hp x hx]; exact Bool.false_ne_true)]
    · obtain ⟨j, hj, rfl⟩ := Option.map_eq_some_iff.1 hi
      rw [List.modify_succ_cons, List.filter_cons, ih hj, List.filter_cons]

theorem find?_filter (hpq : ∀ x, p x → q x) : (l.filter q).find? p = l.find? p := by
  rw [List.find?_filter]
  congr 1
  funext x
  by_cases hx : p x
  · simp [hx, hpq x hx]
  · simp [hx]

/-- A property that a change keeps holds after the change of one element. -/
theorem forall_mem_modify {P : α → Prop} (hl : ∀ x ∈ l, P x) (hf : ∀ x, P x → P (f x)) (i : ℕ) :
    ∀ x ∈ l.modify i f, P x := by
  induction l generalizing i with
  | nil => simp
  | cons x l ih =>
    obtain ⟨hx, hl⟩ := List.forall_mem_cons.1 hl
    cases i with
    | zero => exact List.forall_mem_cons.2 ⟨hf x hx, hl⟩
    | succ i => exact List.forall_mem_cons.2 ⟨hx, ih hl i⟩

/-- Erasing the first match erases `b` if and only if `b` is the first match. -/
theorem eraseP_eq_erase_iff [BEq α] [LawfulBEq α] (hb : b ∈ l) (hpb : p b) :
    l.eraseP p = l.erase b ↔ l.find? p = some b := by
  induction l with
  | nil => cases hb
  | cons x l ih =>
    by_cases hx : p x
    · rw [List.eraseP_cons_of_pos hx, List.find?_cons_of_pos hx, Option.some_inj]
      constructor
      · intro heq
        by_contra hne
        rw [List.erase_cons_tail (by simpa using hne)] at heq
        have hmem := (List.mem_cons.1 hb).resolve_left fun h => hne h.symm
        have hcount := congrArg (List.count b) heq
        rw [List.count_cons_of_ne hne, List.count_erase_self] at hcount
        have hpos := List.count_pos_iff.2 hmem
        omega
      · rintro rfl
        rw [List.erase_cons_head]
    · have hne : x ≠ b := by
        rintro rfl
        exact hx hpb
      rw [List.eraseP_cons_of_neg hx, List.find?_cons_of_neg hx, List.erase_cons_tail (by simpa using hne),
        List.cons.injEq, and_iff_right rfl, ih ((List.mem_cons.1 hb).resolve_left hne.symm)]

end

/-! ## What is to be found -/

/-- The chain has another hash for the event. -/
def mismatched (existing : List EventRecord) (e : EventRecord) : Bool :=
  match remoteMap existing e.index with
  | none => false
  | some remote => normaliseHash remote.eventHash ≠ normaliseHash e.eventHash

/-- The events that the chain has another hash for. -/
def mismatches (events existing : List EventRecord) : List ℕ :=
  (events.filter (mismatched existing)).map (·.index)

/-- What the chain answers. -/
def Answers.existing (A : Answers) : List EventRecord :=
  match A.fetchRemoteEvents with
  | .ok existing => existing
  | .error _ => []

/-- A synchronisation lists the conflicts that it finds for its chain, and counts them; a conflict that is
    listed for a chain and is resolved is listed no longer, and no other chain is affected. -/
structure Attributed (H : Host) (p : Synchronizer × Op) : Prop where
  found : ∀ O A i j c events, p.2 = .syncEventRange O A i j c →
    (syncEventRange H O A i j c p.1).1.success = true → fetchEvents O A i j = .ok events →
      ∃ added, getPendingConflicts c (exec H p.2 p.1) = getPendingConflicts c p.1 ++ added ∧
        added.map (·.eventIndex) = mismatches events A.existing ∧
        (syncEventRange H O A i j c p.1).1.conflictCount = added.length
  resolved : ∀ O answers r st c, p.2 = .resolveConflict O answers r st →
    (resolveConflict O answers r st p.1).1 = .ok () → r ∈ getPendingConflicts c p.1 →
      getPendingConflicts c (exec H p.2 p.1) = (getPendingConflicts c p.1).erase r ∧
        ∀ d ≠ c, (exec H p.2 p.1).conflicts.filter (fun x => decide (x.chainId = d)) =
          p.1.conflicts.filter fun x => decide (x.chainId = d)

/-- Only chain 0 has events with another hash, and a conflict that is resolved has no unresolved one with
    its chain and event before it. -/
structure Attributable (H : Host) (p : Synchronizer × Op) : Prop where
  chain : ∀ O A i j c events, p.2 = .syncEventRange O A i j c →
    (syncEventRange H O A i j c p.1).1.success = true → fetchEvents O A i j = .ok events →
      c = 0 ∨ mismatches events A.existing = []
  first : ∀ O answers r st c, p.2 = .resolveConflict O answers r st →
    (resolveConflict O answers r st p.1).1 = .ok () → r ∈ getPendingConflicts c p.1 →
      p.1.conflicts.find? (sameConflict r) = some r

/-! ## What is found -/

section
variable {H : Host} {O : SyncOptions} {A : Answers} {i j c n : ℕ} {s s' : Synchronizer}
  {events existing : List EventRecord}

/-- A conflict is found for an event that the chain has another hash for, and is stored with chain 0. -/
theorem detectConflict_spec (n : ℕ) (existing : List EventRecord) (e : EventRecord) :
    match detectConflict n existing e with
    | none => mismatched existing e = false
    | some r => mismatched existing e = true ∧ r.eventIndex = e.index ∧ r.chainId = 0 ∧
        r.resolved = false := by
  rw [detectConflict, mismatched]
  cases remoteMap existing e.index with
  | none => rfl
  | some remote =>
    by_cases h : normaliseHash e.eventHash = normaliseHash remote.eventHash
    · simp [h]
    · simp [h, Ne.symm h]

theorem eventIndex_detectConflicts :
    (detectConflicts n events existing).map (·.eventIndex) = mismatches events existing := by
  induction events with
  | nil => rfl
  | cons e events ih =>
    rw [detectConflicts] at ih ⊢
    rw [mismatches, List.filterMap_cons, List.filter_cons]
    have hspec := detectConflict_spec n existing e
    cases hd : detectConflict n existing e with
    | none =>
      rw [hd] at hspec
      rw [if_neg (by rw [hspec]; exact Bool.false_ne_true)]
      exact ih
    | some r =>
      rw [hd] at hspec
      obtain ⟨hm, hindex, -⟩ := hspec
      rw [if_pos hm, List.map_cons, List.map_cons, hindex, ih, mismatches]

theorem of_mem_detectConflicts {r : ConflictRecord} (h : r ∈ detectConflicts n events existing) :
    r.chainId = 0 ∧ r.resolved = false := by
  obtain ⟨e, -, he⟩ := List.mem_filterMap.1 h
  have hspec := detectConflict_spec n existing e
  rw [he] at hspec
  exact hspec.2.2

/-- What a synchronisation lists for a chain. -/
theorem getPendingConflicts_append (h : s'.conflicts = s.conflicts ++ detectConflicts n events existing) :
    getPendingConflicts c s' =
      getPendingConflicts c s ++ if c = 0 then detectConflicts n events existing else [] := by
  rw [getPendingConflicts, h, List.filter_append, getPendingConflicts]
  congr 1
  split_ifs with hc
  · refine List.filter_eq_self.2 fun r hr => ?_
    obtain ⟨hchain, hres⟩ := of_mem_detectConflicts hr
    simp [hchain, hres, hc]
  · refine List.filter_eq_nil_iff.2 fun r hr => ?_
    obtain ⟨hchain, -⟩ := of_mem_detectConflicts hr
    simp [hchain, Ne.symm hc]

theorem found_iff {r : SyncResult} (h : syncEventRange H O A i j c s = (r, s')) (hr : r.success = true)
    (hfetch : fetchEvents O A i j = .ok events) :
    (∃ added, getPendingConflicts c s' = getPendingConflicts c s ++ added ∧
      added.map (·.eventIndex) = mismatches events A.existing ∧ r.conflictCount = added.length) ↔
      c = 0 ∨ mismatches events A.existing = [] := by
  obtain ⟨-, events', hfetch', hcase⟩ := syncEventRange_success h hr
  obtain rfl : events = events' := Except.ok.inj (hfetch.symm.trans hfetch')
  rcases hcase with ⟨rfl, hcount, rfl⟩ | ⟨-, existing, hremote, hcount, hconf, -⟩
  · exact iff_of_true ⟨[], (List.append_nil _).symm, rfl, hcount⟩ (.inr rfl)
  · have hexisting : A.existing = existing := by rw [Answers.existing, hremote]
    rw [hexisting, getPendingConflicts_append hconf]
    constructor
    · rintro ⟨added, hadded, hindices, -⟩
      by_cases hc : c = 0
      · exact .inl hc
      · rw [if_neg hc] at hadded
        obtain rfl := List.append_cancel_left hadded
        exact .inr hindices.symm
    · intro hor
      refine ⟨_, rfl, ?_, ?_⟩
      · split_ifs with hc
        · exact eventIndex_detectConflicts
        · exact (hor.resolve_left hc).symm
      · split_ifs with hc
        · exact hcount
        · have hnone := (eventIndex_detectConflicts (n := A.now)).trans (hor.resolve_left hc)
          rw [hcount, List.map_eq_nil_iff.1 hnone]

/-! ## What is resolved -/

theorem sameConflict_iff {r x : ConflictRecord} : sameConflict r x = true ↔
    x.chainId = r.chainId ∧ x.eventIndex = r.eventIndex ∧ x.resolved = false := by
  simp [sameConflict, and_assoc]

theorem resolved_iff {answers : ℕ → Except Text Unit} {r : ConflictRecord} {st : Strategy}
    (h : resolveConflict O answers r st s = (.ok (), s')) (hr : r ∈ getPendingConflicts c s) :
    (getPendingConflicts c s' = (getPendingConflicts c s).erase r ∧
      ∀ d ≠ c, s'.conflicts.filter (fun x => decide (x.chainId = d)) =
        s.conflicts.filter fun x => decide (x.chainId = d)) ↔
          s.conflicts.find? (sameConflict r) = some r := by
  obtain ⟨hmem, hpending⟩ := List.mem_filter.1 hr
  obtain ⟨rfl, hres⟩ : r.chainId = c ∧ r.resolved = false := by simpa using hpending
  have hself : sameConflict r r = true := sameConflict_iff.2 ⟨rfl, rfl, hres⟩
  have hsame : ∀ x, sameConflict r x = true → (decide (x.chainId = r.chainId) && !x.resolved) = true := by
    intro x hx
    obtain ⟨hchain, -, hxr⟩ := sameConflict_iff.1 hx
    simp [hchain, hxr]
  obtain ⟨idx, hidx⟩ : ∃ idx, s.conflicts.findIdx? (sameConflict r) = some idx := by
    rw [← Option.isSome_iff_exists, List.findIdx?_isSome, List.any_eq_true]
    exact ⟨r, hmem, hself⟩
  have hother : ∀ d ≠ r.chainId, ∀ x, sameConflict r x = true → decide (x.chainId = d) = false := by
    intro d hd x hx
    rw [(sameConflict_iff.1 hx).1]
    exact decide_eq_false hd.symm
  have hconf := resolveConflict_ok h hidx
  have hothers : ∀ d ≠ r.chainId, s'.conflicts.filter (fun x => decide (x.chainId = d)) =
      s.conflicts.filter fun x => decide (x.chainId = d) := by
    intro d hd
    rw [hconf]
    exact filter_modify_eq_self (hother d hd) (fun x hx => hother d hd x hx) hidx
  have hlisted : getPendingConflicts r.chainId s' =
      (getPendingConflicts r.chainId s).eraseP (sameConflict r) := by
    rw [getPendingConflicts, hconf]
    exact filter_modify_eq_eraseP hsame (fun x _ => by simp [ConflictRecord.settle]) hidx
  rw [and_iff_left hothers, hlisted, eraseP_eq_erase_iff hr hself, getPendingConflicts, find?_filter hsame]

theorem attributed_iff {p : Synchronizer × Op} : Attributed H p ↔ Attributable H p := by
  obtain ⟨s, o⟩ := p
  constructor
  · intro h
    refine ⟨?_, ?_⟩
    · rintro O A i j c events rfl hok hfetch
      exact (found_iff rfl hok hfetch).1 (h.found O A i j c events rfl hok hfetch)
    · rintro O answers r st c rfl hok hr
      exact (resolved_iff (Prod.ext hok rfl) hr).1 (h.resolved O answers r st c rfl hok hr)
  · intro h
    refine ⟨?_, ?_⟩
    · rintro O A i j c events rfl hok hfetch
      exact (found_iff rfl hok hfetch).2 (h.chain O A i j c events rfl hok hfetch)
    · rintro O answers r st c rfl hok hr
      exact (resolved_iff (Prod.ext hok rfl) hr).2 (h.first O answers r st c rfl hok hr)

end

/-! ## Runs -/

variable {H : Host} {s s' : Synchronizer} {tr : List (Synchronizer × Op)}

/-- What a synchronisation stores. -/
theorem syncEventRange_conflicts {O : SyncOptions} {A : Answers} {i j c : ℕ} :
    ∃ added, (syncEventRange H O A i j c s).2.conflicts = s.conflicts ++ added ∧
      ∀ x ∈ added, x.chainId = 0 := by
  have hnone : ∃ added, s.conflicts = s.conflicts ++ added ∧ ∀ x ∈ added, x.chainId = 0 :=
    ⟨[], (List.append_nil _).symm, nofun⟩
  rw [syncEventRange]
  split_ifs
  · exact hnone
  cases fetchEvents O A i j with
  | error e => exact hnone
  | ok events =>
    cases events with
    | nil => exact hnone
    | cons first rest =>
      cases A.fetchRemoteEvents with
      | error e => exact hnone
      | ok existing =>
        refine ⟨detectConflicts A.now (first :: rest) existing, ?_, fun x hx => (of_mem_detectConflicts hx).1⟩
        simp only [createCheckpoint]
        cases withRetry O A.submitSyncEventsToChain with
        | error e => rfl
        | ok u => cases withRetry O A.submitRecordCheckpoint <;> rfl

/-- A call stores conflicts with chain 0 only. -/
theorem chainId_step {o : Op} (hs : Steps H s o s') (h : ∀ x ∈ s.conflicts, x.chainId = 0) :
    ∀ x ∈ s'.conflicts, x.chainId = 0 := by
  cases hs
  cases o with
  | syncEventRange O A i j c =>
    obtain ⟨added, hconf, hadded⟩ :=
      syncEventRange_conflicts (H := H) (s := s) (O := O) (A := A) (i := i) (j := j) (c := c)
    intro x hx
    rw [exec, hconf] at hx
    exact (List.mem_append.1 hx).elim (h x) (hadded x)
  | resolveConflict O answers r st =>
    rw [exec, resolveConflict]
    cases withRetry O answers with
    | error e => exact h
    | ok u =>
      cases s.conflicts.findIdx? (sameConflict r) with
      | none => exact h
      | some idx => exact forall_mem_modify (f := ConflictRecord.settle _) h (fun x hx => hx) idx

/-- **Conflicts are found and resolved per chain** in exactly the runs where only chain 0 has any, and where
    a conflict is resolved before its repetitions.  All conflicts are stored with chain 0. -/
theorem run_attributed (h : Run (Steps H) {} tr s) : (∀ x ∈ s.conflicts, x.chainId = 0) ∧
    ((∀ p ∈ tr, Attributed H p) ↔ ∀ p ∈ tr, Attributable H p) := by
  refine ⟨?_, forall₂_congr fun p _ => attributed_iff⟩
  exact h.invariant (C := fun _ _ => True) (I := fun s => ∀ x ∈ s.conflicts, x.chainId = 0) nofun
    (fun s o s' _ hs hI => chainId_step hs hI) fun _ _ => trivial

/-! ## An event with another hash -/

/-- A hash function that is not needed here. -/
def echoHost : Host := ⟨id⟩

/-- The chain has another hash for the first event. -/
def otherAnswers : Answers where
  fetchEventBatch i j _ := .ok ((List.range' i (j + 1 - i)).map fun k => ⟨k, ['1']⟩)
  fetchRemoteEvents := .ok [⟨0, ['2']⟩]
  submitSyncEventsToChain _ := .ok ()
  submitRecordCheckpoint _ := .ok ()
  now := 0

/-- For chain 7 the conflict is counted, and is not listed. -/
theorem conflict_unlisted : ∃ s, Run (Steps echoHost) {} [({}, .syncEventRange {} otherAnswers 0 0 7)] s ∧
    (syncEventRange echoHost {} otherAnswers 0 0 7 {}).1.success = true ∧
    (syncEventRange echoHost {} otherAnswers 0 0 7 {}).1.conflictCount = 1 ∧
    getPendingConflicts 7 s = [] ∧ (getPendingConflicts 0 s).map (·.eventIndex) = [0] ∧
      ¬Attributed echoHost ({}, .syncEventRange {} otherAnswers 0 0 7) := by
  refine ⟨_, .snoc .init rfl, rfl, rfl, rfl, rfl, fun h => ?_⟩
  rcases (attributed_iff.1 h).chain _ _ 0 0 7 _ rfl rfl rfl with hzero | hnone
  · cases hzero
  · cases hnone

/-- The conflict that is found for chain 0. -/
def zeroConflict : ConflictRecord :=
  ⟨0, 0, '0' :: 'x' :: normaliseHash ['1'], '0' :: 'x' :: normaliseHash ['2'], 0, false, none⟩

/-- For chain 0 it is listed until it is resolved. -/
theorem run_attributed_zeroConflict : ∃ s tr, Run (Steps echoHost) {} tr s ∧
    tr.map Prod.snd = [.syncEventRange {} otherAnswers 0 0 0,
      .resolveConflict {} (fun _ => .ok ()) zeroConflict .canonical] ∧
    (∀ p ∈ tr, Attributed echoHost p) ∧ getPendingConflicts 0 s = [] := by
  let s₁ := exec echoHost (.syncEventRange {} otherAnswers 0 0 0) {}
  have hrun : Run (Steps echoHost) {} [({}, .syncEventRange {} otherAnswers 0 0 0),
      (s₁, .resolveConflict {} (fun _ => .ok ()) zeroConflict .canonical)]
      (exec echoHost (.resolveConflict {} (fun _ => .ok ()) zeroConflict .canonical) s₁) :=
    .snoc (.snoc .init rfl) rfl
  refine ⟨_, _, hrun, rfl, (run_attributed hrun).2.2 ?_, rfl⟩
  intro p hp
  rcases List.mem_pair.1 hp with rfl | rfl
  · refine ⟨?_, ?_⟩
    · rintro O A i j c events ho - -
      cases ho
      exact .inl rfl
    · rintro O answers r st c ho
      cases ho
  · refine ⟨?_, ?_⟩
    · rintro O A i j c events ho
      cases ho
    · rintro O answers r st c ho - -
      cases ho
      rfl

end CrossChainSynchronizer
