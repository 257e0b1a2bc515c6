/-
  AuditLedger — the version history of an event.

  The history of an event is written when the event is first rewritten; until then
  `get_event_history` shows the event itself.  `update_event` and `rollback_event`
  are the only functions that write it, and every erasure goes through the first.

  * `Revision`: what one rewriting does to the histories and to the live events;
  * `step_evolves`: every call is a sequence of revisions, or logs new events;
  * `history_faithful`: in every reachable state the history of an event runs from
    what was logged to what is live.
-/
import AuditTransparency.Ledger.Keeping

namespace AuditLedger

open Soroban
open Soroban.Call hiding hasPers publish

variable {D : Type} {c c' : Record × Option Symbol}

/-! ## Faithful histories -/

/-- What an event says, with its subtype. -/
def Event.content (e : Event D) : Record × Option Symbol := (e.record, e.subEventType)

/-- **The history runs from `first` to `live`**, and its versions are numbered. -/
structure Faithful (vs : List (EventVersion D)) (first live : Record × Option Symbol) : Prop where
  numbered : ∀ (j : ℕ) v, vs[j]? = some v → v.version = j
  first : vs.head?.map (·.data.content) = some first
  last : vs.getLast?.map (·.data.content) = some live

theorem faithful_original (e : Event D) : Faithful [originalVersion e] e.content e.content where
  numbered j v hv := by
    cases j with
    | zero =>
      obtain rfl : originalVersion e = v := Option.some.inj hv
      rfl
    | succ j => cases hv
  first := rfl
  last := rfl

theorem Faithful.append {vs : List (EventVersion D)} (h : Faithful vs c c') {v : EventVersion D}
    (hv : v.version = vs.length) : Faithful (vs ++ [v]) c v.data.content where
  numbered j u hu := by
    rcases Nat.lt_trichotomy j vs.length with hlt | rfl | hgt
    · exact h.numbered j u (by rwa [List.getElem?_append_left hlt] at hu)
    · obtain rfl : v = u := by simpa using hu
      exact hv
    · rw [List.getElem?_eq_none (by simp; omega)] at hu
      cases hu
  first := by
    obtain ⟨u, hu, -⟩ := Option.map_eq_some_iff.1 h.first
    rw [List.head?_append, hu, Option.some_or, ← hu]
    exact h.first
  last := by simp

variable [DecidableEq D] {H : Host D} {env : Env} {s s' s'' : State D} {op : Op D} {r : Ret D}
  {R : List Record} {L : List (Entry D)} {act : Action D} {i k : ℕ} {m : Bytes}

/-! ## Revisions -/

/-- The content of the live event at position `i`. -/
def contentAt (s : State D) (i : ℕ) : Option (Record × Option Symbol) := (eventAt s i).map Event.content

/-- **A revision of the event at `k`**: its history gets the version `v`, which is the live
    event from then on. -/
structure Revision (s s' : State D) (k : ℕ) (v : EventVersion D) : Prop where
  existed : contentAt s k ≠ none
  versions : s'.inst .eventVersions =
    Function.update (s.inst .eventVersions) k (some (historyOf s k ++ [v]))
  numbered : v.version = (historyOf s k).length
  revised : contentAt s' k = some v.data.content
  others : ∀ i ≠ k, contentAt s' i = contentAt s i

/-- The id an invocation gives to an event with the record `q` at position `k`. -/
def idOf (H : Host D) (env : Env) (k : ℕ) (q : Record) : D :=
  computeEventId H env q.submitter q.eventType q.metadata q.timestamp k

/-- **A revision by an invocation**: the event moves to the id of its new content, and keeps its
    subtype or takes that of an earlier version. -/
structure Revised (H : Host D) (env : Env) (s s' : State D) (k : ℕ) (v : EventVersion D) : Prop
    extends Revision s s' k v where
  order : s'.inst .eventOrder =
    Function.update (s.inst .eventOrder) k (some (idOf H env k v.data.record))
  moved : s'.inst .eventOrder k ≠ s.inst .eventOrder k
  subtype : (∃ c, contentAt s k = some c ∧ c.2 = v.data.subEventType) ∨
    ∃ u ∈ historyOf s k, u.data.subEventType = v.data.subEventType

/-- The same histories and live events. -/
structure Alike (s s' : State D) : Prop where
  versions : s'.inst .eventVersions = s.inst .eventVersions
  content : ∀ i, contentAt s' i = contentAt s i

/-- New events, without a history of their own. -/
structure Grows (s s' : State D) : Prop where
  versions : s'.inst .eventVersions = s.inst .eventVersions
  kept : ∀ i c, contentAt s i = some c → contentAt s' i = some c
  fresh : ∀ i, contentAt s i = none → s.inst .eventVersions i = none

/-- `s'` is what revisions make of `s`. -/
inductive Evolves (s : State D) : State D → Prop
  | refl : Evolves s s
  | alike {t t' : State D} : Evolves s t → Alike t t' → Evolves s t'
  | revise {t t' : State D} {k : ℕ} {v : EventVersion D} : Evolves s t → Revision t t' k v → Evolves s t'

/-- No written history is empty. -/
def Whole (s : State D) : Prop := ∀ i, s.inst .eventVersions i ≠ some []

theorem Evolves.trans (h : Evolves s s') (h' : Evolves s' s'') : Evolves s s'' := by
  induction h' with
  | refl => exact h
  | alike _ ha ih => exact ih.alike ha
  | revise _ hr ih => exact ih.revise hr

theorem Evolves.whole (h : Evolves s s') (hw : Whole s) : Whole s' := by
  induction h with
  | refl => exact hw
  | alike _ ha ih =>
    intro i
    rw [ha.versions]
    exact ih i
  | @revise t t' k v _ hr ih =>
    intro i
    rw [hr.versions]
    by_cases hi : i = k
    · subst hi
      simp
    · rw [Function.update_of_ne hi]
      exact ih i

/-- The keys a history is read from. -/
theorem alike_of_eq (hs : ∀ f ∈ [DataKey.eventVersions, .eventOrder, .eventData], s'.inst f = s.inst f) :
    Alike s s' := by
  refine ⟨hs _ (by simp), fun i => ?_⟩
  rw [contentAt, eventAt, hs .eventOrder (by simp), hs .eventData (by simp)]
  rfl

theorem evolves_of_eq (hs : ∀ f ∈ [DataKey.eventVersions, .eventOrder, .eventData], s'.inst f = s.inst f) :
    Evolves s s' := Evolves.refl.alike (alike_of_eq hs)

/-! ## The writes of a revision -/

/-- The content stored under an id. -/
def contentOf (s : State D) (id : D) : Option (Record × Option Symbol) :=
  (s.inst .eventData id).map Event.content

theorem contentAt_eq (s : State D) (i : ℕ) :
    contentAt s i = (s.inst .eventOrder i).bind (contentOf s) := by
  rw [contentAt, eventAt, Option.map_bind]
  rfl

/-- Events are written with the content they have. -/
theorem contentOf_put {id : D} {e e' : Event D} (he : s.inst .eventData id = some e)
    (hc : e'.content = e.content) :
    contentOf ((s.put .eventData id e').put .eventMeta id e') = contentOf s := by
  funext d
  by_cases hd : d = id
  · subst hd
    simp [contentOf, he, hc]
  · simp [contentOf, Function.update_of_ne hd]

theorem post_relinkLater_content {n : ℕ} {prev : D} :
    Post (relinkLater H k n prev) (fun _ s' => contentOf s' = contentOf s) env s := by
  refine post_range' (fun _ _ t => contentOf t = contentOf s) _ _ _ _ rfl ?_
  intro j x t _ ht
  simp only [relinkEvent, post_bind, post_load, post_unwrap, post_store, post_pure]
  intro id _ e he
  refine (contentOf_put he ?_).trans ht
  rfl

theorem post_reparent_content {n : ℕ} {currentId newId : D} :
    Post ((List.range n).foldlM (fun _ i => reparentEvent currentId newId i) ())
      (fun _ s' => contentOf s' = contentOf s) env s := by
  refine post_range (fun _ _ t => contentOf t = contentOf s) rfl ?_
  intro j x t _ ht
  simp only [reparentEvent, post_bind, post_load, post_unwrap, post_doIf, post_store]
  intro id _ e he
  refine ⟨fun _ => (contentOf_put he ?_).trans ht, fun _ => ht⟩
  rfl

/-- **The writes of a revision**, where the new id is that of no other event. -/
theorem post_reviseEvent_content {n : ℕ} {vs : List (EventVersion D)} {newId : D} {evt : Event D}
    (hnew : ∀ i ≠ k, s.inst .eventOrder i ≠ some newId) :
    Post (reviseEvent H k n vs newId evt)
      (fun _ s' => s'.inst .eventVersions = Function.update (s.inst .eventVersions) k (some vs) ∧
        s'.inst .eventOrder = Function.update (s.inst .eventOrder) k (some newId) ∧
        contentAt s' k = some evt.content ∧ ∀ i ≠ k, contentAt s' i = contentAt s i) env s := by
  simp only [reviseEvent, replaceEvent, post_bind, post_store, post_pure]
  refine Post.with_frame (L := layout D) (W := [.eventData, .eventMeta])
    (post_relinkLater_content.mono fun _ s₁ hc hf => ?_)
  have horder := hf.inst (f := .eventOrder) (by simp)
  simp only [contentAt_eq, hc, horder]
  refine ⟨?_, ?_, ?_, fun i hi => ?_⟩
  · rw [hf.inst (notMem_of_eval rfl)]
    simp
  · simp
  · simp [contentOf]
  · have hid := hnew i hi
    rcases ho : s.inst .eventOrder i with _ | d
    · simp [Function.update_of_ne hi, ho]
    · have hd : d ≠ newId := fun he => hid (he ▸ ho)
      simp [Function.update_of_ne hi, ho, contentOf, Function.update_of_ne hd]

/-- An id of position `k` is at no other one. -/
theorem LogInv.order_ne (hinj : Function.Injective H.sha256) (h : LogInv H s L) (hk : k < L.length) {d : D}
    (hd : IdAt H k d) : ∀ i ≠ k, s.inst .eventOrder i ≠ some d := by
  intro i hi ho
  rw [h.holds.order] at ho
  obtain ⟨p, hp, rfl⟩ := Option.map_eq_some_iff.1 ho
  have hlt := (List.getElem?_eq_some_iff.1 hp).1
  have hlen := h.chain.length_lt
  exact hi (IdAt.unique hinj (by omega) (by omega) (h.chain.placed i p hp).idAt hd)

/-- `update_event` changes nothing, or revises the event and its id. -/
theorem post_updateEvent_revision (hinj : Function.Injective H.sha256) (h : HasLog H s R) (hw : Whole s)
    {caller : Address} :
    Post (updateEvent H caller k m) (fun _ s' => s' = s ∨ ∃ v, Revised H env s s' k v) env s := by
  obtain ⟨L, h, -⟩ := h
  unfold updateEvent
  refine post_bind_reads fun _ _ => post_bind_reads fun _ _ => post_bind_reads fun n hn => ?_
  obtain rfl : L.length = n := by rw [h.totalEvents_run] at hn; cases hn; rfl
  simp only [post_bind, post_rejectIf, post_load, post_unwrap, post_getEnv, post_ite, post_pure,
    post_publish]
  intro hk id hid e he
  refine post_reads fun _ _ => ⟨fun _ => Or.inl rfl, fun hne => ?_⟩
  refine post_reads fun prev _ => post_reads fun version _ => ?_
  have hhist : historyOf s k = if (s.inst .eventVersions k).getD [] = [] then [originalVersion e]
      else (s.inst .eventVersions k).getD [] := by
    rw [historyOf, eventAt, hid, Option.bind_some, he]
    rcases hv : s.inst .eventVersions k with _ | vs
    · simp
    · have hvs : vs ≠ [] := fun hnil => hw k (hnil ▸ hv)
      simp [hvs]
  have hnew :=
    h.order_ne hinj (not_le.1 hk) (idAt_computeEventId H env e.submitter e.eventType m e.timestamp k)
  refine (post_reviseEvent_content hnew).mono ?_
  rintro _ s₁ ⟨hv, ho, hc, hothers⟩
  refine Post.with_frame (L := layout D) (W := [.eventData, .eventMeta])
    (post_reparent_content.mono fun _ s₂ hc₂ hf => Or.inr ?_)
  -- the loop over the children leaves all content alone
  have hsame : ∀ i, contentAt s₂ i = contentAt s₁ i := by
    intro i
    rw [contentAt_eq, contentAt_eq, hc₂, hf.inst (notMem_of_eval rfl)]
  rw [← hhist] at hv
  have hlive : contentAt s k = some e.content := by simp [contentAt, eventAt, hid, he]
  refine ⟨_, ⟨by simp [hlive], (hf.inst (notMem_of_eval rfl)).trans hv, rfl, (hsame k).trans hc,
    fun i hi => (hsame i).trans (hothers i hi)⟩, (hf.inst (notMem_of_eval rfl)).trans ho, ?_, Or.inl ⟨_, hlive, rfl⟩⟩
  rw [Ledger.publish_inst, hf.inst (notMem_of_eval rfl), ho, Function.update_self, hid]
  exact fun heq => hne (Option.some.inj heq)

/-- `rollback_event` returns the id of the version, and changes nothing when the event has it; otherwise
    it revises the event to the content of the version. -/
theorem post_rollbackEvent_restores (hinj : Function.Injective H.sha256) (h : LogInv H s L)
    {caller : Address} {u : ℕ} :
    Post (rollbackEvent H caller k u)
      (fun id s' => ∃ w, (historyOf s k)[u]? = some w ∧ id = idOf H env k w.data.record ∧
        (s.inst .eventOrder k = some id ∧ s' = s ∨
          s.inst .eventOrder k ≠ some id ∧ ∃ v, Revised H env s s' k v ∧ v.data.content = w.data.content))
      env s := by
  unfold rollbackEvent
  refine post_bind_reads fun _ _ => post_bind_reads fun _ _ => post_bind_reads fun n hn => ?_
  obtain rfl : L.length = n := by rw [h.totalEvents_run] at hn; cases hn; rfl
  refine post_bind.2 (post_rejectIf.2 fun hk => ?_)
  refine post_bind_reads fun us hus => ?_
  obtain rfl : historyOf s k = us := by
    rw [h.getEventHistory_run (not_le.1 hk)] at hus; cases hus; rfl
  simp only [post_bind, post_rejectIf, post_load, post_unwrap, post_getEnv, post_ite, post_pure,
    post_publish]
  intro _ w hw id hid
  refine ⟨fun heq => ⟨w, hw, rfl, Or.inl ⟨by rw [hid, heq], trivial⟩⟩, fun hne => ?_⟩
  refine post_reads fun prev _ => post_reads fun version _ => ?_
  have hnew := h.order_ne hinj (not_le.1 hk)
    (idAt_computeEventId H env w.data.submitter w.data.eventType w.data.metadata w.data.timestamp k)
  refine (post_reviseEvent_content hnew).mono ?_
  rintro _ s₁ ⟨hv, ho, hc, hothers⟩
  have hlive : contentAt s k ≠ none := by
    rw [contentAt, h.holds.eventAt_eq, List.getElem?_eq_getElem (not_le.1 hk)]
    exact Option.some_ne_none _
  have hmoved : s.inst .eventOrder k ≠ some (idOf H env k w.data.record) := by
    rw [hid]
    exact fun heq => hne (Option.some.inj heq).symm
  refine ⟨w, hw, rfl, Or.inr ⟨hmoved, _, ⟨⟨hlive, hv, rfl, hc, hothers⟩, ho, ?_,
    Or.inr ⟨w, List.mem_of_getElem? hw, rfl⟩⟩, rfl⟩⟩
  rw [Ledger.publish_inst, ho, Function.update_self]
  exact hmoved.symm

theorem post_rollbackEvent_revision (hinj : Function.Injective H.sha256) (h : HasLog H s R)
    {caller : Address} {u : ℕ} :
    Post (rollbackEvent H caller k u) (fun _ s' => s' = s ∨ ∃ v, Revised H env s s' k v) env s := by
  obtain ⟨L, h, -⟩ := h
  refine (post_rollbackEvent_restores hinj h).mono ?_
  rintro _ s' ⟨w, -, -, ⟨-, rfl⟩ | ⟨-, v, hv, -⟩⟩
  · exact Or.inl rfl
  · exact Or.inr ⟨v, hv⟩

theorem evolves_of_revision (h : s' = s ∨ ∃ v, Revised H env s s' k v) : Evolves s s' := by
  rcases h with rfl | ⟨v, hv⟩
  · exact .refl
  · exact .revise .refl hv.toRevision

theorem post_updateEvent_evolves (hinj : Function.Injective H.sha256) (h : HasLog H s R) (hw : Whole s)
    {caller : Address} : Post (updateEvent H caller k m) (fun _ s' => Evolves s s') env s :=
  (post_updateEvent_revision hinj h hw).mono fun _ _ => evolves_of_revision

theorem post_rollbackEvent_evolves (hinj : Function.Injective H.sha256) (h : HasLog H s R)
    {caller : Address} {u : ℕ} : Post (rollbackEvent H caller k u) (fun _ s' => Evolves s s') env s :=
  (post_rollbackEvent_revision hinj h).mono fun _ _ => evolves_of_revision

theorem post_eraseMetadata_evolves (hinj : Function.Injective H.sha256) (h : HasLog H s R) (hw : Whole s)
    {caller : Address} {e : Event D} {reason : Symbol} :
    Post (eraseMetadata H caller k e reason) (fun _ s' => Evolves s s') env s := by
  simp only [eraseMetadata, post_bind, post_getEnv, post_store]
  refine (post_updateEvent_evolves hinj h hw).mono fun _ s₁ h₁ => h₁.alike (alike_of_eq ?_)
  exact (Ledger.frame_put (L := layout D) (W := [.erasureRecord]) (by simp)).inst_eq (apart_of_eval rfl)

/-- The sweep, round by round. -/
theorem post_sweep_evolves (hinj : Function.Injective H.sha256) (h : HasLog H s R) (hw : Whole s)
    {caller : Address} {first n : ℕ} :
    Post ((List.range' first n).foldlM (sweepEvent H caller) 0) (fun _ s' => Evolves s s') env s := by
  let I (_ : ℕ) (_ : ℕ) (t : State D) : Prop := (∃ R', HasLog H t R') ∧ Evolves s t
  refine (post_range' I n first 0 s ⟨⟨R, h⟩, .refl⟩ ?_).mono fun _ _ h' => h'.2
  rintro j c t - ⟨⟨R', ht⟩, hev⟩
  have hround : Post (sweepEvent H caller c (first + j)) (fun _ t' => Evolves t t') env t :=
    post_sweepEvent_of .refl fun _ => post_eraseMetadata_evolves hinj ht (hev.whole hw)
  refine (hround.and (post_sweepEvent hinj ht)).mono ?_
  rintro _ t' ⟨hev', hlog, -⟩
  exact ⟨⟨_, hlog⟩, hev.trans hev'⟩

/-! ## Steps -/

/-- New events come after the log. -/
theorem grows_of_append {M : List (Entry D)} (h : LogInv H s L) (h' : LogInv H s' (L ++ M))
    (hv : s'.inst .eventVersions = s.inst .eventVersions) : Grows s s' := by
  refine ⟨hv, fun i c hc => ?_, fun i hi => ?_⟩
  · rw [contentAt, h.holds.eventAt_eq] at hc
    rw [contentAt, h'.holds.eventAt_eq]
    rcases hL : L[i]? with _ | p
    · rw [hL] at hc; cases hc
    · rw [List.getElem?_append_left (List.getElem?_eq_some_iff.1 hL).1]
      exact hc
  · rcases hs : s.inst .eventVersions i with _ | vs
    · rfl
    · obtain ⟨p, hp, -⟩ := h.versions i vs hs
      rw [contentAt, h.holds.eventAt_eq, hp] at hi
      cases hi

theorem Grows.alike (hg : Grows s s') (ha : Alike s' s'') : Grows s s'' where
  versions := ha.versions.trans hg.versions
  kept i c hc := (ha.content i).trans (hg.kept i c hc)
  fresh := hg.fresh

/-- **Every call is a sequence of revisions, or logs new events.** -/
theorem step_evolves (hinj : Function.Injective H.sha256) (h : HasLog H s R) (hw : Whole s)
    (hs : Step H env op s r s') : Evolves s s' ∨ Grows s s' := by
  have hcongr : ∀ {t t' : State D}, (∀ f ∈ rewriteWrites, t'.inst f = t.inst f) →
      Evolves s t ∨ Grows s t → Evolves s t' ∨ Grows s t' := by
    intro t t' heq ht
    have halike : Alike t t' := alike_of_eq fun f hf => heq f (by simp at hf ⊢; tauto)
    exact ht.imp (fun hev => hev.alike halike) fun hg => hg.alike halike
  refine step_of_storing (Q := fun t => Evolves s t ∨ Grows s t) (Or.inl .refl) hcongr hs (fun x hx => ?_)
    (fun items hitems => ?_) (fun a k m => ?_) (fun a k v => ?_) (fun a k e reason => ?_) fun a first n => ?_
  · obtain ⟨L, hL, -⟩ := h
    obtain ⟨M, hM, -⟩ := logInv_single hinj hL hx hs
    have hversions : DataKey.eventVersions ∉ op.writes := by
      cases op <;> simp [Op.submission] at hx ⊢
    exact Or.inr (grows_of_append hL hM (((exec_writes H op).of_run hs).inst hversions))
  · subst hitems
    obtain ⟨L, hL, -⟩ := h
    obtain ⟨M, hM, -⟩ := logInv_batch hinj hL hs
    exact Or.inr (grows_of_append hL hM (((exec_writes H _).of_run hs).inst (notMem_of_eval rfl)))
  · exact (post_updateEvent_evolves hinj h hw).mono fun _ _ => Or.inl
  · exact (post_rollbackEvent_evolves hinj h).mono fun _ _ => Or.inl
  · exact (post_eraseMetadata_evolves hinj h hw).mono fun _ _ => Or.inl
  · exact (post_sweep_evolves hinj h hw).mono fun _ _ => Or.inl

theorem next_evolves (hinj : Function.Injective H.sha256) (h : HasLog H s R) (hw : Whole s)
    (hn : Next H s act s') : Evolves s s' ∨ Grows s s' := by
  cases act with
  | call env op =>
    obtain ⟨r, hs⟩ := hn
    exact step_evolves hinj h hw hs
  | expireTemporary f k | expirePersistent f k =>
    rw [Next] at hn; subst hn
    exact Or.inl (evolves_of_eq fun _ _ => rfl)

/-! ## Faithful histories, step by step -/

/-- The history of the event at `i` runs from `first` to the live event. -/
def FaithfulAt (s : State D) (i : ℕ) (first : Record × Option Symbol) : Prop :=
  ∃ c, contentAt s i = some c ∧ Faithful (historyOf s i) first c

/-- A history is read from the written versions, or else from the live event. -/
theorem faithfulAt_congr (hv : s'.inst .eventVersions i = s.inst .eventVersions i)
    (hc : contentAt s' i = contentAt s i) (h : FaithfulAt s i c) : FaithfulAt s' i c := by
  obtain ⟨c', hc', hf⟩ := h
  refine ⟨c', hc.trans hc', ?_⟩
  rcases hs : s.inst .eventVersions i with _ | vs
  · obtain ⟨e, he, rfl⟩ := Option.map_eq_some_iff.1 hc'
    obtain ⟨e', he', hcc⟩ := Option.map_eq_some_iff.1 (hc.trans hc')
    simp only [historyOf, hs, he, Option.getD_none, Option.map_some, Option.toList_some] at hf
    have hfirst : c = e.content := (Option.some.inj hf.first).symm
    rw [historyOf, hv, hs, he', hfirst, ← hcc]
    exact faithful_original e'
  · rw [historyOf, hs] at hf
    rw [historyOf, hv, hs]
    exact hf

theorem faithfulAt_evolves (hev : Evolves s s') (h : FaithfulAt s i c) : FaithfulAt s' i c := by
  induction hev with
  | refl => exact h
  | alike _ ha ih => exact faithfulAt_congr (congrFun ha.versions i) (ha.content i) ih
  | @revise t t' k v _ hr ih =>
    by_cases hi : i = k
    · subst hi
      obtain ⟨c', -, hf⟩ := ih
      refine ⟨_, hr.revised, ?_⟩
      rw [historyOf, hr.versions, Function.update_self]
      exact hf.append hr.numbered
    · refine faithfulAt_congr ?_ (hr.others i hi) ih
      rw [hr.versions, Function.update_of_ne hi]

theorem contentAt_evolves (hev : Evolves s s') (h : contentAt s i = none) : contentAt s' i = none := by
  induction hev with
  | refl => exact h
  | alike _ ha ih => rw [ha.content, ih]
  | @revise t t' k v _ hr ih =>
    by_cases hi : i = k
    · subst hi
      exact absurd ih hr.existed
    · rw [hr.others i hi, ih]

theorem faithfulAt_grows (hg : Grows s s') (h : FaithfulAt s i c) : FaithfulAt s' i c := by
  obtain ⟨c', hc', -⟩ := id h
  exact faithfulAt_congr (congrFun hg.versions i) ((hg.kept i c' hc').trans hc'.symm) h

/-- A new event is its own history. -/
theorem faithfulAt_fresh (hg : Grows s s') (hnone : contentAt s i = none) {e : Event D}
    (he : eventAt s' i = some e) : FaithfulAt s' i e.content := by
  refine ⟨e.content, by rw [contentAt, he]; rfl, ?_⟩
  rw [historyOf, hg.versions, hg.fresh i hnone, he]
  exact faithful_original e

/-! ## Runs -/

/-- `e` is the event at `i` as it was first logged, on the way to `s`. -/
def LoggedAs (H : Host D) (tr : List (State D × Action D)) (s : State D) (i : ℕ) (e : Event D) : Prop :=
  ∃ tr₁ s₁ act s₂ tr₂, tr = tr₁ ++ (s₁, act) :: tr₂ ∧ Next H s₁ act s₂ ∧ Run (Next H) s₂ tr₂ s ∧
    eventAt s₁ i = none ∧ eventAt s₂ i = some e

theorem LoggedAs.snoc {tr : List (State D × Action D)} {e : Event D} (h : LoggedAs H tr s i e)
    (hn : Next H s act s') : LoggedAs H (tr ++ [(s, act)]) s' i e := by
  obtain ⟨tr₁, s₁, a, s₂, tr₂, rfl, hstep, hrun, hnone, hsome⟩ := h
  exact ⟨tr₁, s₁, a, s₂, tr₂ ++ [(s, act)], by simp, hstep, .snoc hrun hn, hnone, hsome⟩

theorem contentAt_eq_none : contentAt s i = none ↔ eventAt s i = none := by
  rw [contentAt, Option.map_eq_none_iff]

theorem faithful_of_run (hinj : Function.Injective H.sha256) {tr : List (State D × Action D)}
    {s₀ : State D}
    (h₀ : Init s₀) (hrun : Run (Next H) s₀ tr s) : (∃ R, HasLog H s R) ∧ Whole s ∧
      ∀ i e, eventAt s i = some e → ∃ e₀, LoggedAs H tr s i e₀ ∧ FaithfulAt s i e₀.content := by
  obtain ⟨g, n, hinit⟩ := initialized_of_init h₀
  induction hrun with
  | init =>
    refine ⟨⟨[], hinit.hasLog⟩, fun i => ?_, fun i e he => ?_⟩
    · rw [(hinit.absent (f := .eventVersions) (by simp) i).1]
      simp
    · rw [eventAt, (hinit.absent (f := .eventOrder) (by simp) i).1] at he
      cases he
  | @snoc tr s s' act hr hn ih =>
    obtain ⟨⟨R, hR⟩, hw, hall⟩ := ih
    refine ⟨⟨_, next_hasLog hinj hR hn⟩, ?_⟩
    rcases next_evolves hinj hR hw hn with hev | hg
    · refine ⟨hev.whole hw, fun i e he => ?_⟩
      rcases hs : eventAt s i with _ | e'
      · have hnone := contentAt_evolves hev (contentAt_eq_none.2 hs)
        rw [contentAt_eq_none.1 hnone] at he
        cases he
      · obtain ⟨e₀, hlog, hf⟩ := hall i e' hs
        exact ⟨e₀, hlog.snoc hn, faithfulAt_evolves hev hf⟩
    · refine ⟨fun i => by rw [hg.versions]; exact hw i, fun i e he => ?_⟩
      rcases hs : eventAt s i with _ | e'
      · refine ⟨e, ⟨tr, s, act, s', [], rfl, hn, .init, hs, he⟩, ?_⟩
        exact faithfulAt_fresh hg (contentAt_eq_none.2 hs) he
      · obtain ⟨e₀, hlog, hf⟩ := hall i e' hs
        exact ⟨e₀, hlog.snoc hn, faithfulAt_grows hg hf⟩

/-- The event `update_event` and `rollback_event` rewrite. -/
def Op.revised : Op D → Option ℕ
  | .updateEvent _ k _ | .rollbackEvent _ k _ => some k
  | _ => none

theorem step_revised (hinj : Function.Injective H.sha256) (h : HasLog H s R) (hw : Whole s)
    (hk : op.revised = some k) (hs : Step H env op s r s') :
    s' = s ∨ ∃ v, Revised H env s s' k v := by
  have of_post : Post (exec H op) (fun _ s' => s' = s ∨ ∃ v, Revised H env s s' k v) env s → _ :=
    fun hp => hp.of_run hs
  cases op <;> simp only [Op.revised, Option.some.injEq, reduceCtorEq] at hk
  case updateEvent =>
    subst hk
    refine of_post ?_
    simp only [exec, post_bind, post_pure]
    exact post_updateEvent_revision hinj h hw
  case rollbackEvent =>
    subst hk
    refine of_post ?_
    simp only [exec, post_bind, post_pure]
    exact post_rollbackEvent_revision hinj h

/-- What `get_event_history` returns, events or not. -/
theorem LogInv.historyOf_run (h : LogInv H s L) :
    (getEventHistory k).run env s = .ok (historyOf s k, s) := by
  by_cases hk : k < L.length
  · exact h.getEventHistory_run hk
  · have hnone : s.inst .eventVersions k = none := by
      rcases hs : s.inst .eventVersions k with _ | vs
      · rfl
      · obtain ⟨p, hp, -⟩ := h.versions k vs hs
        exact absurd (List.getElem?_eq_some_iff.1 hp).1 hk
    rw [getEventHistory, run_bind_ok _ _ h.totalEvents_run, if_pos (not_lt.1 hk), historyOf, hnone,
      h.holds.eventAt_eq, List.getElem?_eq_none (not_lt.1 hk)]
    rfl

/-- **The version history of every event is faithful in every reachable state**: it runs from the
    event as it was first logged to the live event, and `update_event` and `rollback_event` add one
    version to it when they change the id of the event, and nothing when they do not. -/
theorem history_faithful (hinj : Function.Injective H.sha256) {tr : List (State D × Action D)}
    (h : History H tr s) :
    (∃ n, (∀ env, (totalEvents : Fn D ℕ).run env s = .ok (n, s)) ∧
      ∀ i < n, ∃ e₀ e vs, LoggedAs H tr s i e₀ ∧
        (∀ env, (getEventByOrder i : Fn D (Event D)).run env s = .ok (e, s)) ∧
        (∀ env, (getEventHistory i).run env s = .ok (vs, s)) ∧ Faithful vs e₀.content e.content) ∧
    ∀ env op r s' k, op.revised = some k → Step H env op s r s' →
      ∃ vs vs', (∀ env, (getEventHistory k).run env s = .ok (vs, s)) ∧
        (∀ env, (getEventHistory k).run env s' = .ok (vs', s')) ∧
        (s'.inst .eventOrder k = s.inst .eventOrder k → vs' = vs) ∧
        (s'.inst .eventOrder k ≠ s.inst .eventOrder k → ∃ v, vs' = vs ++ [v]) := by
  obtain ⟨s₀, h₀, hrun⟩ := h
  obtain ⟨⟨R, hR⟩, hw, hall⟩ := faithful_of_run hinj h₀ hrun
  obtain ⟨L, hL, -⟩ := id hR
  constructor
  · refine ⟨L.length, fun env => hL.totalEvents_run, fun i hi => ?_⟩
    have hp := List.getElem?_eq_getElem hi
    have he : eventAt s i = some L[i].2 := by rw [hL.holds.eventAt_eq, hp]; rfl
    obtain ⟨e₀, hlog, c, hc, hf⟩ := hall i _ he
    obtain rfl : L[i].2.content = c := by
      rw [contentAt, he] at hc
      exact Option.some.inj hc
    refine ⟨e₀, L[i].2, historyOf s i, hlog, fun env => ?_, fun env => hL.getEventHistory_run hi, hf⟩
    rw [getEventByOrder, run_bind_ok _ _ hL.requireInitialized_run]
    exact hL.fetch_run hp ..
  · intro env op r s' k hk hs
    obtain ⟨L', hL', -⟩ := step_hasLog hinj hR hs
    refine ⟨historyOf s k, historyOf s' k, fun env => hL.historyOf_run, fun env => hL'.historyOf_run, ?_⟩
    rcases step_revised hinj hR hw hk hs with rfl | ⟨v, hv⟩
    · exact ⟨fun _ => rfl, fun hne => absurd rfl hne⟩
    · refine ⟨fun he => absurd he hv.moved, fun _ => ⟨v, ?_⟩⟩
      rw [historyOf, hv.versions, Function.update_self]
      rfl

/-- One event, rewritten twice and given back its first content. -/
def revisedScript : List (Env × Op Bytes) :=
  [(openEnv 11, .logEvent (account 66) "a" [1] (some "c") (some "x") false),
    (openEnv 12, .updateEvent (account 65) 0 [7]),
      (openEnv 13, .logEvent (account 66) "b" [2] none none false),
    (openEnv 14, .updateEvent (account 65) 0 [8])]

theorem history_faithful_revisedScript : ∃ s vs vs', Reachable plainHost s ∧
    (∀ env, (getEventHistory 0).run env s = .ok (vs, s)) ∧ vs.length = 3 ∧
    ∃ env op r s', Step plainHost env op s r s' ∧ op.revised = some 0 ∧
      (∀ env, (getEventHistory 0).run env s' = .ok (vs', s')) ∧ ∃ v, vs' = vs ++ [v] := by
  let s₀ : State Bytes := deployed (openEnv 10) (account 65) 100 50
  obtain ⟨s', hs⟩ : ∃ s, play plainHost s₀
      (revisedScript ++ [(openEnv 15, .rollbackEvent (account 65) 0 0)]) =
      some s := Option.isSome_iff_exists.1 (by decide +kernel)
  obtain ⟨s, r, hpre, hstep⟩ := step_of_play hs
  have hist := history_of_play (init_deployed rfl 100 50) hpre
  obtain ⟨-, hrevise⟩ := history_faithful Function.injective_id hist
  obtain ⟨vs, vs', hvs, hvs', -, hadd⟩ := hrevise _ _ _ _ 0 rfl hstep
  have before : (play plainHost s₀ revisedScript).map (fun s =>
      (((getEventHistory 0).run (openEnv 15) s).toOption.map (·.1.length))) = some (some 3) := by
    decide +kernel
  have changed : (play plainHost s₀ revisedScript).bind (fun s => (play plainHost s₀
      (revisedScript ++ [(openEnv 15, .rollbackEvent (account 65) 0 0)])).map fun s' =>
        decide (s'.inst .eventOrder 0 = s.inst .eventOrder 0)) = some false := by decide +kernel
  rw [hpre, Option.map_some, hvs] at before
  rw [hpre, Option.bind_some, hs] at changed
  simp only [Option.map_some, Option.some.injEq, decide_eq_false_iff_not] at before changed
  exact ⟨s, vs, vs', ⟨_, hist⟩, hvs, Option.some.inj before, _, _, r, s', hstep, rfl, hvs', hadd changed⟩

end AuditLedger
