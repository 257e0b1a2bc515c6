/-
  AuditLedger — purging the archive.

  `archive_events` keeps a copy of an event, or a reference to one that is kept elsewhere.
  `purge_archived_events` looks at the copies only.

  * `Shelved` is the invariant of the archive over every run;
  * `post_purge`: what a purge removes;
  * `purge_complete_iff`: it is complete exactly when no reference is older than the cutoff.
-/
import AuditTransparency.Ledger.Archive
import AuditTransparency.Ledger.ArchiveScan
import AuditTransparency.Ledger.Headers

namespace AuditLedger

open Soroban
open Soroban.Call hiding hasPers publish

variable {D : Type} [DecidableEq D] {H : Host D} {env : Env} {s s' t : State D} {op : Op D} {r : Ret D}
  {act : Action D} {id : D} {evt : Event D} {config : ArchiveConfig} {caller : Address} {cutoff k n : ℕ}

/-! ## Queries -/

/-- One round of the loop of `list_archived_events`: the headers so far and how many. -/
def listArchived (limit : ℕ) (acc : List EventHeader × ℕ) (i : ℕ) : Fn D (List EventHeader × ℕ) :=
  if acc.2 < limit then do
    let id ← get .archivedEventOrder i
    onSome id
      (fun id => do
        let header ← get .archivedEventHeaderKey id
        return match header with
          | some header => (acc.1 ++ [header], acc.2 + 1)
          | none => acc)
      (pure acc)
  else
    pure acc

/-- `list_archived_events` -/
def listArchivedEvents (start limit : ℕ) : Fn D (List EventHeader) := do
  let total := (← get .archivedTotalEvents ()).getD 0
  if start ≥ total then
    return []
  else do
    let acc ← (List.range' start (total - start)).foldlM (listArchived limit) ([], 0)
    return acc.1

/-- The id has a place in the archive. -/
def Listed (s : State D) (id : D) : Prop := ∃ i, s.inst .archivedEventOrder i = some id

/-- Every header it returns is that of an id with a place. -/
theorem listArchivedEvents_run (env : Env) (s : State D) (start limit : ℕ) :
    ∃ headers, (listArchivedEvents start limit : Fn D _).run env s = .ok (headers, s) ∧
      ∀ h ∈ headers, ∃ id, Listed s id ∧ s.inst .archivedEventHeaderKey id = some h := by
  have hloop (l : List ℕ) (acc : List EventHeader × ℕ)
      (hacc : ∀ h ∈ acc.1, ∃ id, Listed s id ∧ s.inst .archivedEventHeaderKey id = some h) :
      ∃ acc', (l.foldlM (listArchived limit) acc : Fn D _).run env s = .ok (acc', s) ∧
        ∀ h ∈ acc'.1, ∃ id, Listed s id ∧ s.inst .archivedEventHeaderKey id = some h := by
    induction l generalizing acc with
    | nil => exact ⟨acc, rfl, hacc⟩
    | cons i l ih =>
      obtain ⟨acc₁, hrun, hacc₁⟩ : ∃ acc₁, (listArchived limit acc i : Fn D _).run env s = .ok (acc₁, s) ∧
          ∀ h ∈ acc₁.1, ∃ id, Listed s id ∧ s.inst .archivedEventHeaderKey id = some h := by
        unfold listArchived
        split
        · rw [run_bind_ok _ _ (run_load ..)]
          rcases ho : s.inst .archivedEventOrder i with _ | id
          · exact ⟨acc, rfl, hacc⟩
          rcases hh : s.inst .archivedEventHeaderKey id with _ | header
          · refine ⟨acc, ?_, hacc⟩
            rw [onSome, run_bind_ok _ _ (run_load ..), hh, run_pure]
          · refine ⟨(acc.1 ++ [header], acc.2 + 1), ?_, fun h hmem => ?_⟩
            · rw [onSome, run_bind_ok _ _ (run_load ..), hh, run_pure]
            · rcases List.mem_append.1 hmem with hmem | hmem
              · exact hacc h hmem
              · rw [List.mem_singleton.1 hmem]
                exact ⟨id, ⟨i, ho⟩, hh⟩
        · exact ⟨acc, rfl, hacc⟩
      obtain ⟨acc', hrun', hacc'⟩ := ih acc₁ hacc₁
      exact ⟨acc', by rw [List.foldlM_cons, run_bind_ok _ _ hrun, hrun'], hacc'⟩
  rw [listArchivedEvents, run_bind_ok _ _ (run_load ..)]
  dsimp only
  split
  · exact ⟨[], rfl, fun h hmem => by cases hmem⟩
  · obtain ⟨acc, hrun, hacc⟩ := hloop _ ([], 0) fun h hmem => by cases hmem
    exact ⟨acc.1, by rw [run_bind_ok _ _ hrun, run_pure], hacc⟩

/-- What `get_archived_event` finds. -/
def archivedEvent (H : Host D) (s : State D) (id : D) : Option (Event D) :=
  match s.inst .archivedEventData id with
  | some evt => some { evt with
      metadata := if isCompressedTag evt.metadata then expandArchivedMetadata evt.metadata
        else evt.metadata }
  | none =>
    (s.inst .archivedEventRefKey id).bind fun proof =>
      (s.inst .archivedEventHeaderKey id).map fun header => {
        index := header.index
        timestamp := header.timestamp
        eventType := header.eventType
        category := "general"
        submitter := header.submitter
        metadata := expandArchivedMetadata ((s.inst .archivedEventMetadata id).getD [])
        subEventType := none
        version := versionOf s
        eventHash := proof.checksum
        prevHash := H.zeros
        parentEventId := none }

theorem getArchivedEvent_run :
    (getArchivedEvent H id).run env s = match archivedEvent H s id with
      | some evt => .ok (evt, s)
      | none => .error (.contract .eventDoesNotExist) := by
  rw [getArchivedEvent, run_bind_ok _ _ (run_load ..), archivedEvent]
  rcases s.inst .archivedEventData id with _ | evt
  · rw [onSome, run_bind_ok _ _ (run_load ..)]
    rcases s.inst .archivedEventRefKey id with _ | proof
    · rfl
    rw [run_bind_ok _ _ ((run_unwrapOr_iff env s).2 rfl), run_bind_ok _ _ (run_load ..)]
    rcases s.inst .archivedEventHeaderKey id with _ | header
    · rfl
    · rw [run_bind_ok _ _ ((run_unwrapOr_iff env s).2 rfl), run_bind_ok _ _ (run_load ..)]
      rfl
  · by_cases hc : isCompressedTag evt.metadata = true
    · simp [onSome, hc]
    · simp [onSome, hc]

/-! ## The archive -/

/-- **The invariant of the archive**, of which the first `n` places are given out. -/
structure Shelved (s : State D) (n : ℕ) : Prop where
  below : ∀ (i : ℕ) id, s.inst .archivedEventOrder i = some id → i < n
  once : ∀ (i j : ℕ) id, s.inst .archivedEventOrder i = some id → s.inst .archivedEventOrder j = some id → i = j
  marked : ∀ (i : ℕ) id, s.inst .archivedEventOrder i = some id → s.inst .eventArchivedFlag id ≠ none
  filed : ∀ (i : ℕ) id, s.inst .archivedEventOrder i = some id → HasCopy s id
  copy : ∀ id evt, s.inst .archivedEventData id = some evt → Listed s id ∧
    s.inst .archivedEventRefKey id = none ∧
    ∃ header, s.inst .archivedEventHeaderKey id = some header ∧ header.timestamp = evt.timestamp
  reference : ∀ id proof, s.inst .archivedEventRefKey id = some proof → Listed s id ∧
    s.inst .archivedEventHeaderKey id ≠ none

/-- The keys it reads. -/
abbrev shelfKeys : List DataKey :=
  [.archivedEventOrder, .eventArchivedFlag, .archivedEventData, .archivedEventRefKey, .archivedEventHeaderKey]

theorem Shelved.of_eq (h : Shelved s n) (hs : ∀ f ∈ shelfKeys, s'.inst f = s.inst f) : Shelved s' n := by
  have ho := hs .archivedEventOrder (by simp)
  have hd := hs .archivedEventData (by simp)
  have hr := hs .archivedEventRefKey (by simp)
  have hh := hs .archivedEventHeaderKey (by simp)
  constructor
  · rw [ho]
    exact h.below
  · rw [ho]
    exact h.once
  · rw [ho, hs .eventArchivedFlag (by simp)]
    exact h.marked
  · simp only [HasCopy, ho, hd, hr]
    exact h.filed
  · simp only [Listed, ho, hd, hr, hh]
    exact h.copy
  · simp only [Listed, ho, hr, hh]
    exact h.reference

/-- An id without a mark has nothing in the archive. -/
theorem Shelved.unmarked (h : Shelved s n) (hid : s.inst .eventArchivedFlag id = none) :
    ¬Listed s id ∧ s.inst .archivedEventData id = none ∧ s.inst .archivedEventRefKey id = none := by
  have hl : ¬Listed s id := fun ⟨i, hi⟩ => h.marked i id hi hid
  refine ⟨hl, ?_, ?_⟩
  · rcases hd : s.inst .archivedEventData id with _ | evt
    · rfl
    · exact absurd (h.copy id evt hd).1 hl
  · rcases hr : s.inst .archivedEventRefKey id with _ | proof
    · rfl
    · exact absurd (h.reference id proof hr).1 hl

/-- What is kept of an event: its header, and a copy or a reference. -/
structure Filing (s s' : State D) (id : D) (evt : Event D) : Prop where
  header : s'.inst .archivedEventHeaderKey =
    Function.update (s.inst .archivedEventHeaderKey) id (some (headerOf evt))
  shape : (s'.inst .archivedEventData = s.inst .archivedEventData ∧
      s'.inst .archivedEventRefKey id ≠ none) ∨
    (s'.inst .archivedEventRefKey = s.inst .archivedEventRefKey ∧
      (s'.inst .archivedEventData id).map Event.timestamp = some evt.timestamp)
  others : ∀ d ≠ id, s'.inst .archivedEventData d = s.inst .archivedEventData d ∧
    s'.inst .archivedEventRefKey d = s.inst .archivedEventRefKey d

theorem post_archiveCopy_filing {acc : ArchiveScan} (hh : s.inst .eventHeaderKey id = some (headerOf evt)) :
    Post (archiveCopy H config acc id evt)
      (fun acc' s' => acc'.archived = acc.archived ∧ Filing s s' id evt) env s := by
  unfold archiveCopy
  simp only [post_bind, post_load, hh, post_ifSome, Option.some.injEq, forall_eq', reduceCtorEq, false_implies,
    and_true, post_store]
  refine post_reads fun compressed _ => post_ite.2 ⟨fun _ => ?_, fun _ => ?_⟩
  · simp only [post_bind, post_store, post_getEnv, post_addChecked, post_pure]
    exact fun _ => ⟨trivial, by simp, Or.inl (by simp), fun d hd => by simp [Function.update_of_ne hd]⟩
  · simp only [post_bind, post_store, post_pure]
    refine ⟨trivial, by simp, Or.inr ⟨by simp, ?_⟩, fun d hd => by simp [Function.update_of_ne hd]⟩
    simp only [Ledger.put_inst, Store.set_same, ne_eq, reduceCtorEq, not_false_eq_true, Store.set_ne,
      Function.update_self, Option.map_some, Option.some.injEq]
    split <;> rfl

/-- One more event is kept. -/
theorem Shelved.snoc (h : Shelved s n) (hid : s.inst .eventArchivedFlag id = none) (hf : Filing s s' id evt)
    (horder : s'.inst .archivedEventOrder = Function.update (s.inst .archivedEventOrder) n (some id))
    (hflag : s'.inst .eventArchivedFlag = Function.update (s.inst .eventArchivedFlag) id (some true)) :
    Shelved s' (n + 1) := by
  obtain ⟨hl, hd, hr⟩ := h.unmarked hid
  have place : ∀ i d, s'.inst .archivedEventOrder i = some d →
      i = n ∧ d = id ∨ i ≠ n ∧ d ≠ id ∧ s.inst .archivedEventOrder i = some d := by
    intro i d hi
    rw [horder] at hi
    by_cases hin : i = n
    · subst hin
      rw [Function.update_self] at hi
      exact Or.inl ⟨rfl, (Option.some.inj hi).symm⟩
    · rw [Function.update_of_ne hin] at hi
      exact Or.inr ⟨hin, fun he => hl ⟨i, he ▸ hi⟩, hi⟩
  have listed : ∀ d, d = id ∨ Listed s d → Listed s' d := by
    rintro d (rfl | ⟨i, hi⟩)
    · exact ⟨n, by rw [horder, Function.update_self]⟩
    · have hin : i ≠ n := (h.below i d hi).ne
      exact ⟨i, by rw [horder, Function.update_of_ne hin, hi]⟩
  constructor
  · intro i d hi
    rcases place i d hi with ⟨rfl, -⟩ | ⟨-, -, hi⟩
    · exact Nat.lt_succ_self _
    · exact (h.below i d hi).trans (Nat.lt_succ_self n)
  · intro i j d hi hj
    rcases place i d hi with ⟨rfl, rfl⟩ | ⟨hin, hne, hi⟩
    · rcases place j d hj with ⟨rfl, -⟩ | ⟨-, hne, -⟩
      · rfl
      · exact absurd rfl hne
    · rcases place j d hj with ⟨-, rfl⟩ | ⟨-, -, hj⟩
      · exact absurd rfl hne
      · exact h.once i j d hi hj
  · intro i d hi
    rw [hflag]
    rcases place i d hi with ⟨-, rfl⟩ | ⟨-, hne, hi⟩
    · simp
    · rw [Function.update_of_ne hne]
      exact h.marked i d hi
  · intro i d hi
    rcases place i d hi with ⟨-, rfl⟩ | ⟨-, hne, hi⟩
    · rcases hf.shape with ⟨-, href⟩ | ⟨-, hcopy⟩
      · exact Or.inr (Option.isSome_iff_ne_none.2 href)
      · obtain ⟨evt', hevt', -⟩ := Option.map_eq_some_iff.1 hcopy
        exact Or.inl (by rw [hevt']; rfl)
    · rw [HasCopy, (hf.others d hne).1, (hf.others d hne).2]
      exact h.filed i d hi
  · intro d e he
    by_cases hdid : d = id
    · subst hdid
      rcases hf.shape with ⟨hdata, -⟩ | ⟨href, hcopy⟩
      · rw [hdata, hd] at he
        cases he
      · rw [he, Option.map_some] at hcopy
        exact ⟨listed d (Or.inl rfl), by rw [href, hr], headerOf evt, by rw [hf.header, Function.update_self],
          (Option.some.inj hcopy).symm⟩
    · rw [(hf.others d hdid).1] at he
      obtain ⟨hld, hrd, header, hheader, htime⟩ := h.copy d e he
      exact ⟨listed d (Or.inr hld), by rw [(hf.others d hdid).2, hrd], header,
        by rw [hf.header, Function.update_of_ne hdid, hheader], htime⟩
  · intro d proof hp
    rw [hf.header]
    by_cases hdid : d = id
    · subst hdid
      exact ⟨listed d (Or.inl rfl), by simp⟩
    · rw [(hf.others d hdid).2] at hp
      obtain ⟨hld, hheader⟩ := h.reference d proof hp
      exact ⟨listed d (Or.inr hld), by rwa [Function.update_of_ne hdid]⟩

/-- **`archive_events`.** -/
theorem Shelved.post_archiveEvents (h : Shelved s (archivedTotal s)) (hhead : Headed s) :
    Post (archiveEvents H caller cutoff) (fun _ s' => Shelved s' (archivedTotal s')) env s := by
  refine (post_archiveEvents_of (fun n t => Shelved t n ∧ Headed t) ?_ ?_ ⟨h, hhead⟩).mono fun _ s' h' => h'.1
  · rintro n t t' hs ⟨ht, hht⟩
    refine ⟨ht.of_eq fun f hf => hs f ?_, hht.of_eq (hs _ (by simp)) (hs _ (by simp))⟩
    simp only [List.mem_cons, List.not_mem_nil, or_false] at hf
    rcases hf with rfl | rfl | rfl | rfl | rfl <;> simp
  · rintro acc t x evt ⟨ht, hht⟩ hflag hevt
    refine Post.with_frame (L := layout D) (W := copyKeys)
      ((post_archiveCopy_filing (hht x evt hevt)).mono ?_)
    rintro acc' t' ⟨harch, hfiling⟩ hf
    refine ⟨?_, hht.of_eq (by simp [hf.inst (f := DataKey.eventData)])
      (by simp [hf.inst (f := DataKey.eventHeaderKey)])⟩
    rw [harch]
    refine ht.snoc hflag ⟨by simpa using hfiling.header, by simpa using hfiling.shape,
      by simpa using hfiling.others⟩ ?_ ?_
    · simp [hf.inst (f := DataKey.archivedEventOrder)]
    · simp [hf.inst (f := DataKey.eventArchivedFlag)]

/-! ## The purge -/

/-- The place `i` has a copy older than the cutoff. -/
def expiredAt (s : State D) (cutoff i : ℕ) : Bool :=
  (s.inst .archivedEventOrder i).any fun id =>
    (s.inst .archivedEventData id).any fun evt => evt.timestamp < cutoff

/-- The copy of `id` is older than the cutoff. -/
def Expired (s : State D) (cutoff : ℕ) (id : D) : Prop :=
  ∃ evt, s.inst .archivedEventData id = some evt ∧ evt.timestamp < cutoff

theorem expiredAt_iff {i : ℕ} (h : s.inst .archivedEventOrder i = some id) :
    expiredAt s cutoff i = true ↔ Expired s cutoff id := by
  simp only [expiredAt, h, Option.any_some, Expired]
  rw [Option.any_eq_true]
  simp only [decide_eq_true_eq]

/-- The keys a purge writes. -/
abbrev purgeKeys : List DataKey :=
  [.archivedEventData, .archivedEventHeaderKey, .archivedEventMetadata, .archivedEventOrder]

/-- The archive after the purge has seen the first `n` places. -/
structure PurgedTo (s : State D) (cutoff n removed : ℕ) (t : State D) : Prop where
  removed : removed = (List.range n).countP (expiredAt s cutoff)
  frame : s.Frame purgeKeys t
  order : ∀ i : ℕ, t.inst .archivedEventOrder i =
    if i < n ∧ expiredAt s cutoff i = true then none else s.inst .archivedEventOrder i
  gone : ∀ i < n, expiredAt s cutoff i = true → ∀ id, s.inst .archivedEventOrder i = some id →
    t.inst .archivedEventData id = none ∧ t.inst .archivedEventHeaderKey id = none
  kept : ∀ id, (∀ i < n, s.inst .archivedEventOrder i = some id → expiredAt s cutoff i = false) →
    t.inst .archivedEventData id = s.inst .archivedEventData id ∧
    t.inst .archivedEventHeaderKey id = s.inst .archivedEventHeaderKey id ∧
    t.inst .archivedEventMetadata id = s.inst .archivedEventMetadata id

/-- One round of the loop. -/
theorem PurgedTo.post_purgeArchivedEvent {removed : ℕ} (hs : Shelved s k) (h : PurgedTo s cutoff n removed t) :
    Post (purgeArchivedEvent cutoff removed n) (fun c t' => PurgedTo s cutoff (n + 1) c t') env t := by
  have horder : t.inst .archivedEventOrder n = s.inst .archivedEventOrder n := by
    rw [h.order, if_neg (by simp)]
  -- nothing was removed of an id that is listed here
  have hcopy : ∀ id, s.inst .archivedEventOrder n = some id →
      t.inst .archivedEventData id = s.inst .archivedEventData id := by
    intro id hid
    refine (h.kept id fun i hi hid' => ?_).1
    exact absurd (hs.once i n id hid' hid) hi.ne
  have hsame : expiredAt s cutoff n = false → PurgedTo s cutoff (n + 1) removed t := by
    intro hno
    have hlt (i : ℕ) (hi : i < n + 1) (hexp : expiredAt s cutoff i = true) : i < n := by
      rcases Nat.lt_succ_iff_lt_or_eq.1 hi with hlt | rfl
      · exact hlt
      · rw [hno] at hexp
        cases hexp
    refine ⟨?_, h.frame, fun i => ?_, fun i hi hexp => h.gone i (hlt i hi hexp) hexp, fun id hid =>
      h.kept id fun i hi => hid i (Nat.lt_succ_of_lt hi)⟩
    · rw [List.range_succ, List.countP_append, ← h.removed]
      simp [hno]
    · rw [h.order]
      refine if_congr (and_congr_left fun hexp => ?_) rfl rfl
      exact ⟨Nat.lt_succ_of_lt, fun hi => hlt i hi hexp⟩
  simp only [purgeArchivedEvent, post_bind, post_load, post_onSome, post_ite, post_clear, post_pure]
  rw [horder]
  refine ⟨fun id hid => ?_, fun hnone => hsame (by rw [expiredAt, hnone, Option.any_none])⟩
  rw [hcopy id hid]
  refine ⟨fun hold => ?_, fun hnot => hsame ?_⟩
  · have hexp : expiredAt s cutoff n = true := (expiredAt_iff hid).2 hold
    have hframe : s.Frame purgeKeys ((((t.del .archivedEventData id).del .archivedEventHeaderKey id).del
        .archivedEventMetadata id).del .archivedEventOrder n) :=
      (((h.frame.trans (Ledger.frame_del (by simp))).trans (Ledger.frame_del (by simp))).trans
        (Ledger.frame_del (by simp))).trans (Ledger.frame_del (by simp))
    refine ⟨?_, hframe, fun i => ?_, fun i hi hexpi d hd => ?_, fun d hd => ?_⟩
    · rw [List.range_succ, List.countP_append, ← h.removed]
      simp [hexp]
    · by_cases hin : i = n
      · subst hin
        simp [hexp]
      · have hiff : i < n + 1 ↔ i < n := by omega
        simp [Function.update_of_ne hin, h.order, hiff]
    · by_cases hdid : d = id
      · subst hdid
        simp
      · have hlt : i < n := by
          rcases Nat.lt_succ_iff_lt_or_eq.1 hi with hlt | rfl
          · exact hlt
          · rw [hid] at hd
            exact absurd (Option.some.inj hd).symm hdid
        simpa [Function.update_of_ne hdid] using h.gone i hlt hexpi d hd
    · have hdid : d ≠ id := by
        rintro rfl
        have := hd n (Nat.lt_succ_self n) hid
        rw [hexp] at this
        cases this
      simpa [Function.update_of_ne hdid] using h.kept d fun i hi => hd i (Nat.lt_succ_of_lt hi)
  · exact Bool.eq_false_iff.2 fun hexp => hnot ((expiredAt_iff hid).1 hexp)

/-- **`purge_archived_events`.** -/
theorem Shelved.post_purge (h : Shelved s (archivedTotal s)) :
    Post (purgeArchivedEvents caller cutoff true)
      (fun removed s' => PurgedTo s cutoff (archivedTotal s) removed s') env s := by
  unfold purgeArchivedEvents
  refine post_bind_reads fun _ _ => post_bind_reads fun _ _ => ?_
  simp only [not_true_eq_false, if_false, post_bind, post_load, post_publish, post_pure]
  have h₀ : PurgedTo s cutoff 0 0 s := by
    refine ⟨rfl, Ledger.frame_refl, fun i => ?_, fun i hi => absurd hi (Nat.not_lt_zero i),
      fun _ _ => ⟨rfl, rfl, rfl⟩⟩
    rw [if_neg (by simp)]
  refine (post_range (fun j c t => PurgedTo s cutoff j c t) h₀ ?_).mono fun c t ht => ?_
  · exact fun j c t _ ht => ht.post_purgeArchivedEvent h
  · exact ⟨ht.removed, ht.frame, ht.order, ht.gone, ht.kept⟩

/-! ## What is left -/

namespace PurgedTo
variable (h : PurgedTo s cutoff n k t) (hs : Shelved s n)
include h hs

/-- By id, instead of by place. -/
theorem of_expired (hexp : Expired s cutoff id) :
    t.inst .archivedEventData id = none ∧ t.inst .archivedEventRefKey id = none ∧ ¬Listed t id := by
  obtain ⟨evt, hevt, hlt⟩ := hexp
  obtain ⟨⟨i, hi⟩, href, -⟩ := hs.copy id evt hevt
  have hexpi : expiredAt s cutoff i = true := (expiredAt_iff hi).2 ⟨evt, hevt, hlt⟩
  refine ⟨(h.gone i (hs.below i id hi) hexpi id hi).1, by rw [h.frame.inst (notMem_of_eval rfl), href], ?_⟩
  rintro ⟨j, hj⟩
  rw [h.order] at hj
  split at hj
  · cases hj
  · next hno =>
    obtain rfl : j = i := hs.once j i id hj hi
    exact hno ⟨hs.below j id hi, hexpi⟩

omit hs in
theorem of_not_expired (hexp : ¬Expired s cutoff id) :
    t.inst .archivedEventData id = s.inst .archivedEventData id ∧
    t.inst .archivedEventHeaderKey id = s.inst .archivedEventHeaderKey id ∧
    t.inst .archivedEventMetadata id = s.inst .archivedEventMetadata id ∧
    ∀ i, t.inst .archivedEventOrder i = some id ↔ s.inst .archivedEventOrder i = some id := by
  have hno : ∀ i, s.inst .archivedEventOrder i = some id → expiredAt s cutoff i = false := fun i hi =>
    Bool.eq_false_iff.2 fun he => hexp ((expiredAt_iff hi).1 he)
  obtain ⟨hd, hh, hm⟩ := h.kept id fun i _ => hno i
  refine ⟨hd, hh, hm, fun i => ?_⟩
  rw [h.order]
  constructor
  · intro hi
    split at hi
    · cases hi
    · exact hi
  · intro hi
    rw [if_neg (by simp [hno i hi]), hi]

/-- What is listed is not expired. -/
theorem listed_iff : Listed t id ↔ Listed s id ∧ ¬Expired s cutoff id := by
  by_cases hexp : Expired s cutoff id
  · exact iff_of_false (h.of_expired hs hexp).2.2 fun hl => hl.2 hexp
  · simp only [Listed, (h.of_not_expired hexp).2.2.2, hexp, not_false_eq_true, and_true]

theorem shelved : Shelved t n := by
  have keep : ∀ {id}, Listed t id → ¬Expired s cutoff id := fun hl => ((h.listed_iff hs).1 hl).2
  have place : ∀ {i id}, t.inst .archivedEventOrder i = some id →
      s.inst .archivedEventOrder i = some id := fun {i id} hi =>
    ((h.of_not_expired (keep ⟨i, hi⟩)).2.2.2 i).1 hi
  constructor
  · exact fun i id hi => hs.below i id (place hi)
  · exact fun i j id hi hj => hs.once i j id (place hi) (place hj)
  · intro i id hi
    rw [h.frame.inst (notMem_of_eval rfl)]
    exact hs.marked i id (place hi)
  · intro i id hi
    rw [HasCopy, (h.of_not_expired (keep ⟨i, hi⟩)).1, h.frame.inst (notMem_of_eval rfl)]
    exact hs.filed i id (place hi)
  · intro id evt hevt
    have hexp : ¬Expired s cutoff id := fun hexp => by
      rw [(h.of_expired hs hexp).1] at hevt
      cases hevt
    obtain ⟨hd, hh, -⟩ := h.of_not_expired hexp
    rw [hd] at hevt
    obtain ⟨hl, hr, hheader⟩ := hs.copy id evt hevt
    exact ⟨(h.listed_iff hs).2 ⟨hl, hexp⟩, by rw [h.frame.inst (notMem_of_eval rfl), hr], by rwa [hh]⟩
  · intro id proof hp
    have hexp : ¬Expired s cutoff id := fun hexp => by
      rw [(h.of_expired hs hexp).2.1] at hp
      cases hp
    rw [h.frame.inst (notMem_of_eval rfl)] at hp
    obtain ⟨hl, hheader⟩ := hs.reference id proof hp
    exact ⟨(h.listed_iff hs).2 ⟨hl, hexp⟩, by rwa [(h.of_not_expired hexp).2.1]⟩

end PurgedTo

/-! ## Runs -/

/-- A call keeps the archive in order. -/
theorem step_shelved (h : Shelved s (archivedTotal s)) (hhead : Headed s) (hs : Step H env op s r s') :
    Shelved s' (archivedTotal s') := by
  have of_post : Post (exec H op) (fun _ s' => Shelved s' (archivedTotal s')) env s →
      Shelved s' (archivedTotal s') := fun hp => hp.of_run hs
  have framed : (∀ f ∈ DataKey.archivedTotalEvents :: shelfKeys, f ∉ op.writes) →
      Shelved s' (archivedTotal s') := fun hf => by
    have heq := ((exec_writes H op).of_run hs).inst_eq hf
    have htotal : archivedTotal s' = archivedTotal s := by rw [archivedTotal, heq _ (by simp), archivedTotal]
    rw [htotal]
    exact h.of_eq fun f hf => heq f (List.mem_cons_of_mem _ hf)
  cases op with
  | archiveEvents a c =>
    refine of_post ?_
    simp only [exec, post_bind, post_pure]
    exact h.post_archiveEvents hhead
  | purgeArchivedEvents a c confirm =>
    refine of_post ?_
    simp only [exec, post_bind, post_pure]
    cases confirm with
    | true =>
      refine h.post_purge.mono fun removed t ht => ?_
      have htotal : archivedTotal t = archivedTotal s := by
        rw [archivedTotal, ht.frame.inst (notMem_of_eval rfl), archivedTotal]
      rw [htotal]
      exact ht.shelved h
    | false =>
      unfold purgeArchivedEvents
      exact post_bind_reads fun _ _ => post_bind_reads fun _ _ => post_ite.2
        ⟨fun _ => post_pure.2 h, fun hno => by simp at hno⟩
  | _ => exact framed (apart_of_eval rfl)

/-- **In every reachable state the archive is in order.** -/
theorem shelved_of_reachable (h : Reachable H s) : Shelved s (archivedTotal s) := by
  obtain ⟨tr, s₀, h₀, hrun⟩ := h
  obtain ⟨g, m, hinit⟩ := initialized_of_init h₀
  have key : Shelved s (archivedTotal s) ∧ Headed s := by
    refine hrun.invariant (C := fun _ _ => True) (I := fun s => Shelved s (archivedTotal s) ∧ Headed s) ?_ ?_
      fun _ _ => trivial
    · have horder (i : ℕ) : s₀.inst .archivedEventOrder i = none :=
        (hinit.absent (f := .archivedEventOrder) (by simp) i).1
      refine ⟨⟨fun i id hi => ?_, fun i j id hi => ?_, fun i id hi => ?_, fun i id hi => ?_, fun id evt hid => ?_,
        fun id proof hid => ?_⟩, hinit.headed⟩
      · rw [horder] at hi
        cases hi
      · rw [horder] at hi
        cases hi
      · rw [horder] at hi
        cases hi
      · rw [horder] at hi
        cases hi
      · rw [(hinit.absent (f := .archivedEventData) (by simp) id).1] at hid
        cases hid
      · rw [(hinit.absent (f := .archivedEventRefKey) (by simp) id).1] at hid
        cases hid
    · rintro s act s' - hn ⟨hs, hhead⟩
      refine ⟨?_, (headed_kept H).next trivial hhead hn⟩
      cases act with
      | call env op =>
        obtain ⟨r, hstep⟩ := hn
        exact step_shelved hs hhead hstep
      | expireTemporary f k | expirePersistent f k =>
        rw [Next] at hn
        subst hn
        exact hs.of_eq fun _ _ => rfl
  exact key.1

/-! ## Completeness -/

/-- The ids with a place. -/
def shelf (s : State D) : List D := (List.range (archivedTotal s)).filterMap (s.inst .archivedEventOrder)

theorem Shelved.nodup_shelf (h : Shelved s (archivedTotal s)) : (shelf s).Nodup :=
  List.Nodup.filterMap (fun i j id hi hj => h.once i j id hi hj) List.nodup_range

theorem Shelved.mem_shelf (h : Shelved s (archivedTotal s)) : id ∈ shelf s ↔ Listed s id := by
  simp only [shelf, List.mem_filterMap, List.mem_range, Listed]
  exact ⟨fun ⟨i, _, hi⟩ => ⟨i, hi⟩, fun ⟨i, hi⟩ => ⟨i, h.below i id hi, hi⟩⟩

/-- `get_archived_event_count` -/
theorem Shelved.getArchivedEventCount_run (h : Shelved s (archivedTotal s)) :
    (getArchivedEventCount : Fn D ℕ).run env s = .ok ((shelf s).length, s) := by
  have hloop (l : List ℕ) (cnt : ℕ) : (l.foldlM countArchived cnt : Fn D ℕ).run env s =
      .ok (cnt + (l.filterMap (s.inst .archivedEventOrder)).length, s) := by
    induction l generalizing cnt with
    | nil => rfl
    | cons i l ih =>
      rcases ho : s.inst .archivedEventOrder i with _ | id
      · have hround : (countArchived cnt i : Fn D ℕ).run env s = .ok (cnt, s) := by
          rw [countArchived, run_bind_ok _ _ (run_load ..), ho]
          rfl
        rw [List.foldlM_cons, run_bind_ok _ _ hround, ih, List.filterMap_cons, ho]
      · have hcopy : (s.inst .archivedEventData id).isSome ∨ (s.inst .archivedEventRefKey id).isSome :=
          h.filed i id ho
        have hround : (countArchived cnt i : Fn D ℕ).run env s = .ok (cnt + 1, s) := by
          rw [countArchived, run_bind_ok _ _ (run_load ..), ho, onSome, run_bind_ok _ _ (run_load ..),
            run_bind_ok _ _ (run_load ..), if_pos hcopy, run_pure]
        rw [List.foldlM_cons, run_bind_ok _ _ hround, ih, List.filterMap_cons, ho, List.length_cons,
          Nat.add_right_comm, Nat.add_assoc]
  rw [getArchivedEventCount, run_bind_ok _ _ (run_load ..)]
  have hall := hloop (List.range (archivedTotal s)) 0
  rw [Nat.zero_add] at hall
  exact hall

/-- `get_archived_event` returns the event. -/
def Retrieves (H : Host D) (s : State D) (id : D) (evt : Event D) : Prop :=
  ∀ env, (getArchivedEvent H id).run env s = .ok (evt, s)

theorem retrieves_iff : Retrieves H s id evt ↔ archivedEvent H s id = some evt := by
  constructor
  · intro h
    have hrun := h ⟨0, 0, fun _ => true, fun _ => 0⟩
    rw [getArchivedEvent_run] at hrun
    rcases ha : archivedEvent H s id with _ | evt'
    · rw [ha] at hrun
      cases hrun
    · rw [ha] at hrun
      cases hrun
      rfl
  · intro h env
    rw [getArchivedEvent_run, h]

/-- A reference whose header is older than the cutoff. -/
def OldReference (s : State D) (cutoff : ℕ) (id : D) : Prop :=
  ∃ proof header, s.inst .archivedEventRefKey id = some proof ∧
    s.inst .archivedEventHeaderKey id = some header ∧ header.timestamp < cutoff

/-- What is retrievable has a place, and is older than the cutoff as a copy or as a reference. -/
theorem Shelved.older_iff (h : Shelved s n) (cutoff : ℕ) (he : archivedEvent H s id = some evt) :
    Listed s id ∧ (evt.timestamp < cutoff ↔ Expired s cutoff id ∨ OldReference s cutoff id) := by
  unfold archivedEvent at he
  rcases hd : s.inst .archivedEventData id with _ | e
  · simp only [hd] at he
    obtain ⟨proof, hr, he⟩ := Option.bind_eq_some_iff.1 he
    obtain ⟨header, hh, rfl⟩ := Option.map_eq_some_iff.1 he
    refine ⟨(h.reference id proof hr).1, fun hlt => Or.inr ⟨proof, header, hr, hh, hlt⟩, ?_⟩
    rintro (⟨e, he, -⟩ | ⟨_, header', -, hh', hlt⟩)
    · rw [hd] at he
      cases he
    · rw [hh] at hh'
      rwa [Option.some.inj hh']
  · simp only [hd, Option.some.injEq] at he
    subst he
    obtain ⟨hl, hr, -⟩ := h.copy id e hd
    refine ⟨hl, fun hlt => Or.inl ⟨e, hd, hlt⟩, ?_⟩
    rintro (⟨e', he', hlt⟩ | ⟨proof, _, hr', -⟩)
    · rw [hd] at he'
      rwa [Option.some.inj he']
    · rw [hr] at hr'
      cases hr'

/-- What has a place is retrievable. -/
theorem Shelved.retrieves (h : Shelved s n) (hl : Listed s id) : ∃ evt, archivedEvent H s id = some evt := by
  obtain ⟨i, hi⟩ := hl
  rcases hd : s.inst .archivedEventData id with _ | e
  · obtain ⟨proof, hr⟩ : ∃ proof, s.inst .archivedEventRefKey id = some proof := by
      rcases h.filed i id hi with hc | hc
      · rw [hd] at hc
        cases hc
      · exact Option.isSome_iff_exists.1 hc
    obtain ⟨header, hh⟩ := Option.ne_none_iff_exists'.1 (h.reference id proof hr).2
    rw [archivedEvent, hd, hr, hh]
    exact ⟨_, rfl⟩
  · rw [archivedEvent, hd]
    exact ⟨_, rfl⟩

theorem archivedEvent_congr (hd : s'.inst .archivedEventData id = s.inst .archivedEventData id)
    (hr : s'.inst .archivedEventRefKey id = s.inst .archivedEventRefKey id)
    (hh : s'.inst .archivedEventHeaderKey id = s.inst .archivedEventHeaderKey id)
    (hm : s'.inst .archivedEventMetadata id = s.inst .archivedEventMetadata id)
    (hv : s'.inst .contractVersion = s.inst .contractVersion) :
    archivedEvent H s' id = archivedEvent H s id := by
  rw [archivedEvent, hd, hr, hh, hm, versionOf, hv, archivedEvent, versionOf]

/-- **The purge is complete**: of the events that were retrievable, those older than the cutoff are
    gone, the others are as they were, and the result says how many are gone. -/
structure PurgeComplete (H : Host D) (s : State D) (cutoff : ℕ) (r : Ret D) (s' : State D) : Prop where
  gone : ∀ id evt, Retrieves H s id evt → evt.timestamp < cutoff →
    ∀ env, (getArchivedEvent H id).run env s' = .error (.contract .eventDoesNotExist)
  unlisted : ∀ env start limit, ∃ headers, (listArchivedEvents start limit : Fn D _).run env s' =
    .ok (headers, s') ∧ ∀ h ∈ headers, cutoff ≤ h.timestamp
  kept : ∀ id evt, Retrieves H s id evt → cutoff ≤ evt.timestamp → Retrieves H s' id evt
  counted : ∃ ids : List D, ids.Nodup ∧
    (∀ id, id ∈ ids ↔ ∃ evt, Retrieves H s id evt ∧ cutoff ≤ evt.timestamp) ∧
    ∀ env, (getArchivedEventCount : Fn D ℕ).run env s' = .ok (ids.length, s')
  result : ∃ ids : List D, ids.Nodup ∧
    (∀ id, id ∈ ids ↔ ∃ evt, Retrieves H s id evt ∧ evt.timestamp < cutoff) ∧ r = .nat ids.length

section
variable {removed : ℕ} (hs : Shelved s (archivedTotal s)) (h : PurgedTo s cutoff (archivedTotal s) removed t)
include hs h

omit hs in
theorem PurgedTo.archivedTotal_eq : archivedTotal t = archivedTotal s := by
  rw [archivedTotal, h.frame.inst (notMem_of_eval rfl), archivedTotal]

omit hs in
theorem PurgedTo.archivedEvent_of_not_expired (hexp : ¬Expired s cutoff id) :
    archivedEvent H t id = archivedEvent H s id := by
  obtain ⟨hd, hh, hm, -⟩ := h.of_not_expired hexp
  exact archivedEvent_congr hd (by rw [h.frame.inst (notMem_of_eval rfl)]) hh hm (h.frame.inst (notMem_of_eval rfl))

/-- The number of places that were emptied. -/
theorem PurgedTo.removed_eq : ∃ ids : List D, ids.Nodup ∧ (∀ id, id ∈ ids ↔ Expired s cutoff id) ∧
    removed = ids.length := by
  refine ⟨((List.range (archivedTotal s)).filter (expiredAt s cutoff)).filterMap (s.inst .archivedEventOrder),
    ?_, fun id => ?_, ?_⟩
  · exact List.Nodup.filterMap (fun i j id hi hj => hs.once i j id hi hj) (List.nodup_range.filter _)
  · simp only [List.mem_filterMap, List.mem_filter, List.mem_range]
    constructor
    · rintro ⟨i, ⟨-, hexp⟩, hi⟩
      exact (expiredAt_iff hi).1 hexp
    · rintro ⟨evt, hevt, hlt⟩
      obtain ⟨⟨i, hi⟩, -⟩ := hs.copy id evt hevt
      exact ⟨i, ⟨hs.below i id hi, (expiredAt_iff hi).2 ⟨evt, hevt, hlt⟩⟩, hi⟩
  · rw [h.removed, List.length_filterMap_eq_countP, List.countP_filter]
    refine List.countP_congr fun i _ => ?_
    rcases ho : s.inst .archivedEventOrder i with _ | d
    · simp [expiredAt, ho]
    · simp

/-- Without old references, the purge is complete. -/
theorem PurgedTo.complete (hno : ∀ id, ¬OldReference s cutoff id) :
    PurgeComplete H s cutoff (.nat removed) t := by
  have ht : Shelved t (archivedTotal t) := by
    rw [h.archivedTotal_eq]
    exact h.shelved hs
  have older {id evt} (he : archivedEvent H s id = some evt) : evt.timestamp < cutoff ↔ Expired s cutoff id := by
    rw [(hs.older_iff cutoff he).2]
    exact or_iff_left (hno id)
  constructor
  · intro id evt hret hlt env
    obtain ⟨hd, hr, -⟩ := h.of_expired hs ((older (retrieves_iff.1 hret)).1 hlt)
    rw [getArchivedEvent_run, archivedEvent, hd, hr]
    rfl
  · intro env start limit
    obtain ⟨headers, hrun, hall⟩ := listArchivedEvents_run env t start limit
    refine ⟨headers, hrun, fun header hmem => ?_⟩
    obtain ⟨id, hl, hh⟩ := hall header hmem
    obtain ⟨hls, hexp⟩ := (h.listed_iff hs).1 hl
    rw [(h.of_not_expired hexp).2.1] at hh
    obtain ⟨i, hi⟩ := hls
    by_contra hlt
    rcases hs.filed i id hi with hc | hc
    · obtain ⟨evt, hevt⟩ := Option.isSome_iff_exists.1 hc
      obtain ⟨-, -, header', hh', htime⟩ := hs.copy id evt hevt
      rw [hh] at hh'
      obtain rfl := Option.some.inj hh'
      exact hexp ⟨evt, hevt, by omega⟩
    · obtain ⟨proof, hr⟩ := Option.isSome_iff_exists.1 hc
      exact hno id ⟨proof, header, hr, hh, by omega⟩
  · intro id evt hret hle
    rw [retrieves_iff] at hret ⊢
    rw [h.archivedEvent_of_not_expired fun hexp => absurd ((older hret).2 hexp) (by omega), hret]
  · refine ⟨shelf t, ht.nodup_shelf, fun id => ?_, fun env => ht.getArchivedEventCount_run⟩
    rw [ht.mem_shelf, h.listed_iff hs]
    constructor
    · rintro ⟨hl, hexp⟩
      obtain ⟨evt, he⟩ := hs.retrieves (H := H) hl
      exact ⟨evt, retrieves_iff.2 he, Nat.le_of_not_lt fun hlt => hexp ((older he).1 hlt)⟩
    · rintro ⟨evt, hret, hle⟩
      rw [retrieves_iff] at hret
      exact ⟨(hs.older_iff cutoff hret).1, fun hexp => absurd ((older hret).2 hexp) (by omega)⟩
  · obtain ⟨ids, hnodup, hmem, hlen⟩ := h.removed_eq hs
    refine ⟨ids, hnodup, fun id => ?_, by rw [hlen]⟩
    rw [hmem]
    constructor
    · rintro ⟨evt, hevt, hlt⟩
      obtain ⟨evt', he⟩ := hs.retrieves (H := H) (hs.copy id evt hevt).1
      exact ⟨evt', retrieves_iff.2 he, (older he).2 ⟨evt, hevt, hlt⟩⟩
    · rintro ⟨evt, hret, hlt⟩
      exact (older (retrieves_iff.1 hret)).1 hlt

/-- An old reference stays. -/
theorem PurgedTo.not_complete (hold : OldReference s cutoff id) : ¬PurgeComplete H s cutoff r t := by
  obtain ⟨proof, header, hr, hh, hlt⟩ := hold
  have hd : s.inst .archivedEventData id = none := by
    rcases hd : s.inst .archivedEventData id with _ | evt
    · rfl
    · rw [(hs.copy id evt hd).2.1] at hr
      cases hr
  have hexp : ¬Expired s cutoff id := by
    rintro ⟨evt, hevt, -⟩
    rw [hd] at hevt
    cases hevt
  obtain ⟨evt, he⟩ := hs.retrieves (H := H) (hs.reference id proof hr).1
  intro hc
  have hgone := hc.gone id evt (retrieves_iff.2 he)
    ((hs.older_iff cutoff he).2.2 (Or.inr ⟨proof, header, hr, hh, hlt⟩)) ⟨0, 0, fun _ => true, fun _ => 0⟩
  rw [getArchivedEvent_run, h.archivedEvent_of_not_expired hexp, he] at hgone
  cases hgone

end

theorem step_purged (h : Reachable H s)
    (hs : Step H env (.purgeArchivedEvents caller cutoff true) s r s') :
    ∃ removed, r = .nat removed ∧ PurgedTo s cutoff (archivedTotal s) removed s' := by
  have key : Post (exec H (.purgeArchivedEvents caller cutoff true))
      (fun r s' => ∃ removed, r = .nat removed ∧ PurgedTo s cutoff (archivedTotal s) removed s') env s := by
    simp only [exec, post_bind, post_pure]
    exact (shelved_of_reachable h).post_purge.mono fun removed _ ht => ⟨removed, rfl, ht⟩
  exact key.of_run hs

/-- **A purge is complete exactly when no reference of the archive is older than the cutoff.** -/
theorem purge_complete_iff (h : Reachable H s)
    (hs : Step H env (.purgeArchivedEvents caller cutoff true) s r s') :
    PurgeComplete H s cutoff r s' ↔
      ∀ id proof header, s.inst .archivedEventRefKey id = some proof →
        s.inst .archivedEventHeaderKey id = some header → cutoff ≤ header.timestamp := by
  have hshelved := shelved_of_reachable h
  obtain ⟨removed, rfl, ht⟩ := step_purged h hs
  constructor
  · intro hc id proof header hr hh
    by_contra hlt
    exact ht.not_complete hshelved ⟨proof, header, hr, hh, Nat.lt_of_not_le hlt⟩ hc
  · intro hall
    refine ht.complete hshelved ?_
    rintro id ⟨proof, header, hr, hh, hlt⟩
    exact absurd (hall id proof header hr hh) (Nat.not_le.2 hlt)

/-- An event that is archived, in storage of the given kind. -/
def purgeScript (offchainStorage : Bool) : List (Env × Op Bytes) :=
  [(openEnv 11, .logEvent (account 66) "a" [1] none none false),
    (openEnv 12, .setArchiveConfig (account 65) ⟨offchainStorage, [], 0⟩),
    (openEnv 12, .archiveEvents (account 65) 12)]

theorem purge_complete_purgeScript : ∃ s r s', Reachable plainHost s ∧
    Step plainHost (openEnv 13) (.purgeArchivedEvents (account 65) 20 true) s r s' ∧
    PurgeComplete plainHost s 20 r s' := by
  let s₀ : State Bytes := deployed (openEnv 10) (account 65) 100 50
  obtain ⟨s', hs'⟩ : ∃ s', play plainHost s₀
      (purgeScript false ++ [(openEnv 13, .purgeArchivedEvents (account 65) 20 true)]) = some s' :=
    Option.isSome_iff_exists.1 (by decide +kernel)
  obtain ⟨s, r, hs, hstep⟩ := step_of_play hs'
  have hreach : Reachable plainHost s := ⟨_, history_of_play (init_deployed rfl 100 50) hs⟩
  have before : (play plainHost s₀ (purgeScript false)).map (fun s =>
      (archivedTotal s, (s.inst .archivedEventOrder 0).bind (s.inst .archivedEventRefKey))) =
      some (1, none) := by decide +kernel
  rw [hs, Option.map_some, Option.some.injEq, Prod.mk.injEq] at before
  refine ⟨s, r, s', hreach, hstep, (purge_complete_iff hreach hstep).2 fun id proof header hr _ => ?_⟩
  -- the one place of the archive is that of a copy
  have hshelved := shelved_of_reachable hreach
  obtain ⟨⟨i, hi⟩, -⟩ := hshelved.reference id proof hr
  have hlt := hshelved.below i id hi
  rw [before.1] at hlt
  obtain rfl : i = 0 := Nat.lt_one_iff.1 hlt
  have hnone := before.2
  rw [hi, Option.bind_some, hr] at hnone
  cases hnone

/-- A reference is passed over: the purge removes nothing, and the event is found as before. -/
theorem purge_keeps_reference : ∃ s s' id evt, Reachable plainHost s ∧
    Step plainHost (openEnv 13) (.purgeArchivedEvents (account 65) 20 true) s (.nat 0) s' ∧
    Retrieves plainHost s id evt ∧ evt.timestamp < 20 ∧ Retrieves plainHost s' id evt := by
  let s₀ : State Bytes := deployed (openEnv 10) (account 65) 100 50
  let id := computeEventId plainHost (openEnv 11) (account 66) "a" [1] 11 0
  obtain ⟨s', hs'⟩ : ∃ s', play plainHost s₀
      (purgeScript true ++ [(openEnv 13, .purgeArchivedEvents (account 65) 20 true)]) = some s' :=
    Option.isSome_iff_exists.1 (by decide +kernel)
  obtain ⟨s, r, hs, hstep⟩ := step_of_play hs'
  have hreach : Reachable plainHost s := ⟨_, history_of_play (init_deployed rfl 100 50) hs⟩
  have before : (play plainHost s₀ (purgeScript true)).map (fun s =>
      ((archivedEvent plainHost s id).map (·.timestamp), s.inst .archivedEventData id,
        ((exec plainHost (.purgeArchivedEvents (account 65) 20 true)).run (openEnv 13) s).toOption.map (·.1))) =
      some (some 11, none, some (.nat 0)) := by decide +kernel
  rw [hs, Option.map_some, Option.some.injEq, Prod.mk.injEq, Prod.mk.injEq] at before
  obtain ⟨hfound, hdata, hret⟩ := before
  have hrun : (exec plainHost (.purgeArchivedEvents (account 65) 20 true)).run (openEnv 13) s = .ok (r, s') :=
    hstep
  rw [hrun] at hret
  obtain rfl : r = .nat 0 := Option.some.inj hret
  obtain ⟨evt, hevt, htime⟩ := Option.map_eq_some_iff.1 hfound
  obtain ⟨removed, -, ht⟩ := step_purged hreach hstep
  have hexp : ¬Expired s 20 id := by
    rintro ⟨e, he, -⟩
    rw [hdata] at he
    cases he
  refine ⟨s, s', id, evt, hreach, hstep, retrieves_iff.2 hevt, by omega, retrieves_iff.2 ?_⟩
  rw [ht.archivedEvent_of_not_expired hexp, hevt]

end AuditLedger
