/-
  AuditLedger — versions and ids, call by call.

  A call adds at most one version to the history of an event, and the event then has
  the id that the invocation gives to its new content.

  * `VersionStep`: what a call does to one event and its history;
  * `step_versionStep`: every call does that, to every event;
  * `written_of_run`: every version was written by a call of the run;
  * `Written.id_eq`: and the event then had the id of its content in that invocation.
-/
import AuditTransparency.Ledger.Batches
import AuditTransparency.Ledger.Histories

namespace AuditLedger

open Soroban
open Soroban.Call hiding hasPers publish

variable {D : Type} [DecidableEq D] {H : Host D} {env : Env} {s s' s'' : State D} {op : Op D} {r : Ret D}
  {R : List Record} {L M : List (Entry D)} {act : Action D} {i k n : ℕ} {m : Bytes}
  {c : Record × Option Symbol} {caller : Address}

/-! ## One event -/

/-- The content of the versions of the event at `i`. -/
def contentsOf (s : State D) (i : ℕ) : List (Record × Option Symbol) :=
  (historyOf s i).map (·.data.content)

theorem contentsOf_of_versions {vs : List (EventVersion D)} (h : s.inst .eventVersions i = some vs) :
    contentsOf s i = vs.map (·.data.content) := by
  rw [contentsOf, historyOf, h]; rfl

theorem contentsOf_of_none (h : s.inst .eventVersions i = none) :
    contentsOf s i = (contentAt s i).toList := by
  rw [contentsOf, historyOf, h, contentAt]
  rcases eventAt s i with _ | e <;> rfl

theorem contentsOf_congr (hv : s'.inst .eventVersions i = s.inst .eventVersions i)
    (hc : contentAt s' i = contentAt s i) : contentsOf s' i = contentsOf s i := by
  rcases hs : s.inst .eventVersions i with _ | vs
  · rw [contentsOf_of_none hs, contentsOf_of_none (hv.trans hs), hc]
  · rw [contentsOf_of_versions hs, contentsOf_of_versions (hv.trans hs)]

/-- The event at `i` has the same content, the same versions and the same id. -/
structure SameAt (s s' : State D) (i : ℕ) : Prop where
  contents : contentsOf s' i = contentsOf s i
  content : contentAt s' i = contentAt s i
  order : s'.inst .eventOrder i = s.inst .eventOrder i

/-- The event at `i` gets a version with the content `c` and the id of it, be it logged or revised. -/
structure Added (H : Host D) (env : Env) (s s' : State D) (i : ℕ) (c : Record × Option Symbol) : Prop where
  contents : contentsOf s' i = contentsOf s i ++ [c]
  content : contentAt s' i = some c
  order : s'.inst .eventOrder i = some (idOf H env i c.1)
  subtype : contentsOf s i = [] ∧ contentAt s i = none ∨
    ∃ c₀, (contentAt s i = some c₀ ∨ c₀ ∈ contentsOf s i) ∧ c₀.2 = c.2

/-- **What a call does to one event**: nothing, or it adds one version. -/
def VersionStep (H : Host D) (env : Env) (s s' : State D) (i : ℕ) : Prop :=
  SameAt s s' i ∨ ∃ c, Added H env s s' i c

theorem sameAt_refl : SameAt s s i := ⟨rfl, rfl, rfl⟩

theorem SameAt.trans (h : SameAt s s' i) (h' : SameAt s' s'' i) : SameAt s s'' i where
  contents := h'.contents.trans h.contents
  content := h'.content.trans h.content
  order := h'.order.trans h.order

/-- The keys an event and its history are read from. -/
theorem sameAt_of_eq (hs : ∀ f ∈ [DataKey.eventVersions, .eventOrder, .eventData], s'.inst f = s.inst f) :
    SameAt s s' i := by
  have halike := alike_of_eq hs
  exact ⟨contentsOf_congr (congrFun halike.versions i) (halike.content i), halike.content i,
    by rw [hs _ (by simp)]⟩

/-- After a version, the event is left alone. -/
theorem VersionStep.same (h : VersionStep H env s s' i) (h' : SameAt s' s'' i) :
    VersionStep H env s s'' i := by
  rcases h with h | ⟨c, h⟩
  · exact Or.inl (h.trans h')
  · exact Or.inr ⟨c, h'.contents.trans h.contents, h'.content.trans h.content, h'.order.trans h.order,
      h.subtype⟩

/-- Before a version, too. -/
theorem SameAt.step (h : SameAt s s' i) (h' : VersionStep H env s' s'' i) :
    VersionStep H env s s'' i := by
  rcases h' with h' | ⟨c, h'⟩
  · exact Or.inl (h.trans h')
  · refine Or.inr ⟨c, ?_, h'.content, h'.order, ?_⟩
    · rw [h'.contents, h.contents]
    · have hsub := h'.subtype
      rwa [h.contents, h.content] at hsub

/-! ## Revisions -/

/-- Only the event at `k` gets a version. -/
structure Touched (H : Host D) (env : Env) (s s' : State D) (k : ℕ) : Prop where
  target : VersionStep H env s s' k
  others : ∀ i ≠ k, SameAt s s' i

theorem touched_refl : Touched H env s s k := ⟨Or.inl sameAt_refl, fun _ _ => sameAt_refl⟩

theorem Touched.of_eq (h : Touched H env s s' k)
    (hs : ∀ f ∈ [DataKey.eventVersions, .eventOrder, .eventData], s''.inst f = s'.inst f) :
    Touched H env s s'' k where
  target := h.target.same (sameAt_of_eq hs)
  others i hi := (h.others i hi).trans (sameAt_of_eq hs)

theorem Touched.versionStep (h : Touched H env s s' k) (i : ℕ) : VersionStep H env s s' i := by
  by_cases hi : i = k
  · subst hi
    exact h.target
  · exact Or.inl (h.others i hi)

/-- A revision adds its version. -/
theorem Revised.touched {v : EventVersion D} (h : Revised H env s s' k v) : Touched H env s s' k where
  target := by
    refine Or.inr ⟨v.data.content, ?_, h.revised, ?_, Or.inr ?_⟩
    · rw [contentsOf_of_versions (by rw [h.versions, Function.update_self]), List.map_append]; rfl
    · rw [h.order, Function.update_self]; rfl
    · rcases h.subtype with ⟨c, hc, hsub⟩ | ⟨u, hu, hsub⟩
      · exact ⟨c, Or.inl hc, hsub⟩
      · exact ⟨u.data.content, Or.inr (List.mem_map_of_mem hu), hsub⟩
  others i hi := by
    refine ⟨contentsOf_congr ?_ (h.others i hi), h.others i hi, ?_⟩
    · rw [h.versions, Function.update_of_ne hi]
    · rw [h.order, Function.update_of_ne hi]

theorem touched_of_revision (h : s' = s ∨ ∃ v, Revised H env s s' k v) : Touched H env s s' k := by
  rcases h with rfl | ⟨v, hv⟩
  · exact touched_refl
  · exact hv.touched

theorem post_updateEvent_touched (hinj : Function.Injective H.sha256) (h : HasLog H s R) (hw : Whole s) :
    Post (updateEvent H caller k m) (fun _ s' => Touched H env s s' k) env s :=
  (post_updateEvent_revision hinj h hw).mono fun _ _ => touched_of_revision

theorem post_rollbackEvent_touched (hinj : Function.Injective H.sha256) (h : HasLog H s R) {v : ℕ} :
    Post (rollbackEvent H caller k v) (fun _ s' => Touched H env s s' k) env s :=
  (post_rollbackEvent_revision hinj h).mono fun _ _ => touched_of_revision

theorem post_eraseMetadata_touched (hinj : Function.Injective H.sha256) (h : HasLog H s R) (hw : Whole s)
    {e : Event D} {reason : Symbol} :
    Post (eraseMetadata H caller k e reason) (fun _ s' => Touched H env s s' k) env s := by
  simp only [eraseMetadata, post_bind, post_getEnv, post_store]
  refine (post_updateEvent_touched hinj h hw).mono fun _ s₁ h₁ => h₁.of_eq ?_
  exact (Ledger.frame_put (L := layout D) (W := [.erasureRecord]) (by simp)).inst_eq (apart_of_eval rfl)

/-- The sweep visits every position once. -/
theorem post_sweep_versionStep (hinj : Function.Injective H.sha256) (h : HasLog H s R) (hw : Whole s)
    {first : ℕ} :
    Post ((List.range' first n).foldlM (sweepEvent H caller) 0)
      (fun _ s' => ∀ i, VersionStep H env s s' i) env s := by
  let I (j : ℕ) (_ : ℕ) (t : State D) : Prop :=
    ((∃ R', HasLog H t R') ∧ Evolves s t) ∧
      (∀ i, first + j ≤ i → SameAt s t i) ∧ ∀ i, VersionStep H env s t i
  refine (post_range' I n first 0 s ⟨⟨⟨R, h⟩, .refl⟩, fun _ _ => sameAt_refl, fun _ => Or.inl sameAt_refl⟩
    ?_).mono fun _ _ h' => h'.2.2
  rintro j x t - ⟨⟨⟨R', ht⟩, hev⟩, hlater, hall⟩
  have hwt := hev.whole hw
  have hround : Post (sweepEvent H caller x (first + j))
      (fun _ t' => Evolves t t' ∧ Touched H env t t' (first + j)) env t :=
    post_sweepEvent_of ⟨.refl, touched_refl⟩ fun _ =>
      (post_eraseMetadata_evolves hinj ht hwt).and (post_eraseMetadata_touched hinj ht hwt)
  refine (hround.and (post_sweepEvent hinj ht)).mono ?_
  rintro _ t' ⟨⟨hev', htouch⟩, hlog, -⟩
  refine ⟨⟨⟨_, hlog⟩, hev.trans hev'⟩, fun i hi => ?_, fun i => ?_⟩
  · exact (hlater i (by omega)).trans (htouch.others i (by omega))
  · by_cases hi : i = first + j
    · subst hi
      exact (hlater _ le_rfl).step htouch.target
    · exact (hall i).same (htouch.others i hi)

/-! ## Logging -/

/-- New events with the ids of their content are versions that are added. -/
theorem versionStep_of_append (h : LogInv H s L) (h' : LogInv H s' (L ++ M))
    (hv : s'.inst .eventVersions = s.inst .eventVersions)
    (hid : ∀ j p, M[j]? = some p → p.1 = idOf H env (L.length + j) p.2.record) (i : ℕ) :
    VersionStep H env s s' i := by
  rcases Nat.lt_or_ge i L.length with hi | hi
  · have hold : (L ++ M)[i]? = L[i]? := List.getElem?_append_left hi
    have hcontent : contentAt s' i = contentAt s i := by
      rw [contentAt, contentAt, h.holds.eventAt_eq, h'.holds.eventAt_eq, hold]
    refine Or.inl ⟨contentsOf_congr (congrFun hv i) hcontent, hcontent, ?_⟩
    rw [h.holds.order, h'.holds.order, hold]
  · have hnone : L[i]? = none := List.getElem?_eq_none hi
    have hnew : (L ++ M)[i]? = M[i - L.length]? := List.getElem?_append_right hi
    have hcontent : contentAt s i = none := by rw [contentAt, h.holds.eventAt_eq, hnone]; rfl
    have hversions : s.inst .eventVersions i = none :=
      (grows_of_append h h' hv).fresh i hcontent
    rcases hp : M[i - L.length]? with _ | p
    · have hcontent' : contentAt s' i = none := by
        rw [contentAt, h'.holds.eventAt_eq, hnew, hp]; rfl
      refine Or.inl ⟨contentsOf_congr (congrFun hv i) (hcontent'.trans hcontent.symm),
        hcontent'.trans hcontent.symm, ?_⟩
      rw [h.holds.order, h'.holds.order, hnone, hnew, hp]
    · have hcontent' : contentAt s' i = some p.2.content := by
        rw [contentAt, h'.holds.eventAt_eq, hnew, hp]; rfl
      refine Or.inr ⟨p.2.content, ?_, hcontent', ?_, Or.inl ⟨?_, hcontent⟩⟩
      · rw [contentsOf_of_none ((congrFun hv i).trans hversions), contentsOf_of_none hversions, hcontent,
          hcontent']
        rfl
      · have hpos : L.length + (i - L.length) = i := by omega
        rw [h'.holds.order, hnew, hp, Option.map_some, hid _ p hp, hpos]
        rfl
      · rw [contentsOf_of_none hversions, hcontent]; rfl

/-- The single path gives a new event the id of its content. -/
theorem single_ids (hinj : Function.Injective H.sha256) (h : LogInv H s L) {x : Submission}
    (hx : op.submission = some x) (hs : Step H env op s r s') :
    ∃ M, LogInv H s' (L ++ M) ∧ ∀ j p, M[j]? = some p → p.1 = idOf H env (L.length + j) p.2.record := by
  obtain ⟨M, hM, hrec⟩ := logInv_single hinj h hx hs
  refine ⟨M, hM, fun j p hp => ?_⟩
  obtain ⟨id, s₁, hrun, -, hf, -⟩ := step_single hx hs
  have hadds : (op.adds H env s)[j]? = some p.2.record := by
    rw [← hrec, records, List.getElem?_map, hp]; rfl
  rw [Op.adds, hx] at hadds
  rcases post_logEventWithHierarchy_appended.of_run hrun with ⟨hdup, -⟩ | ⟨hdup, cfg, q, hcfg, rfl, -, happ⟩
  · simp [hdup] at hadds
  · simp only [hdup, Option.isSome_none, Bool.false_eq_true, if_false] at hadds
    obtain rfl : j = 0 := by
      have := (List.getElem?_eq_some_iff.1 hadds).1
      rw [List.length_singleton] at this
      omega
    obtain ⟨c, hc, hn⟩ := h.counted.config
    obtain rfl : cfg = c := by
      rw [Op.enter_inst] at hcfg
      exact Option.some.inj (hcfg.symm.trans hc)
    have horder := congrFun (happ.laid .eventOrder (by simp)) L.length
    rw [← hf.inst (notMem_of_eval rfl), hM.holds.order, List.getElem?_append_right le_rfl, Nat.sub_self, hp, hn] at horder
    have hlay : (lay (op.enter s) (newEntry H env (versionOf (op.enter s)) x L.length
        (prevHashAt H (op.enter s) L.length))).inst .eventOrder L.length =
        some (idOf H env L.length (x.record env.timestamp)) := by
      unfold lay
      split_ifs <;> simp [putEvent, newEntry, idOf, Submission.record]
    rw [hlay] at horder
    have hrecord : x.record env.timestamp = p.2.record := Option.some.inj hadds
    rw [← hrecord]
    exact Option.some.inj horder

/-- The id of an entry of a batch. -/
theorem order_layAll {items : List Item} {version n j : ℕ} {prev : D} {item : Item}
    (hj : items[j]? = some item) :
    (layAll s (chainOf H version (items.map (env, ·)) n prev)).inst .eventOrder (n + j) =
      some (idOf H env (n + j) (itemRecord env.timestamp item)) := by
  induction items generalizing s n prev j with
  | nil => cases hj
  | cons first items ih =>
    rw [List.map_cons, layAll_chainOf]
    cases j with
    | zero =>
      obtain rfl : first = item := Option.some.inj hj
      exact (eventOrder_layAll (Nat.lt_succ_self n)).trans (eventOrder_lay (env, first))
    | succ j =>
      have hnext : (layAll (lay s (newEntry H env version (forced first) n prev)) (chainOf H version
          (items.map (env, ·)) (n + 1) (newEntry H env version (forced first) n prev).2.eventHash)).inst
          .eventOrder (n + 1 + j) = some (idOf H env (n + 1 + j) (itemRecord env.timestamp item)) := ih hj
      rwa [Nat.add_right_comm, Nat.add_assoc] at hnext

/-- So does a batch. -/
theorem batch_ids (hinj : Function.Injective H.sha256) (h : LogInv H s L) {items : List Item}
    (hs : Step H env (.logEvents items) s r s') :
    ∃ M, LogInv H s' (L ++ M) ∧ ∀ j p, M[j]? = some p → p.1 = idOf H env (L.length + j) p.2.record := by
  obtain ⟨M, hM, hrec⟩ := logInv_batch hinj h hs
  refine ⟨M, hM, fun j p hp => ?_⟩
  have hitem := congrArg (·[j]?) hrec
  simp only [records, List.getElem?_map, hp, Option.map_some] at hitem
  obtain ⟨item, hj, hrecord⟩ := Option.map_eq_some_iff.1 hitem.symm
  have horder := congrFun ((step_batchLaid hinj h hs).laid .eventOrder (by simp)) (L.length + j)
  rw [order_layAll hj, hM.holds.order, List.getElem?_append_right (Nat.le_add_right ..),
    Nat.add_sub_cancel_left, hp, hrecord] at horder
  exact Option.some.inj horder

/-! ## Every call -/

/-- **A call adds at most one version to the history of an event**, with the id of its content. -/
theorem step_versionStep (hinj : Function.Injective H.sha256) (h : HasLog H s R) (hw : Whole s)
    (hs : Step H env op s r s') (i : ℕ) : VersionStep H env s s' i := by
  have hcongr : ∀ {t t' : State D}, (∀ f ∈ rewriteWrites, t'.inst f = t.inst f) →
      VersionStep H env s t i → VersionStep H env s t' i := fun heq ht =>
    ht.same (sameAt_of_eq fun f hf => heq f (by simp at hf ⊢; tauto))
  refine step_of_storing (Q := fun t => VersionStep H env s t i) (Or.inl sameAt_refl) hcongr hs
    (fun x hx => ?_) (fun items hitems => ?_) (fun a k m => ?_) (fun a k v => ?_)
    (fun a k e reason => ?_) fun a first n => ?_
  · obtain ⟨L, hL, -⟩ := h
    obtain ⟨M, hM, hid⟩ := single_ids hinj hL hx hs
    have hversions : DataKey.eventVersions ∉ op.writes := by
      cases op <;> simp [Op.submission] at hx ⊢
    exact versionStep_of_append hL hM (((exec_writes H op).of_run hs).inst hversions) hid i
  · subst hitems
    obtain ⟨L, hL, -⟩ := h
    obtain ⟨M, hM, hid⟩ := batch_ids hinj hL hs
    exact versionStep_of_append hL hM (((exec_writes H _).of_run hs).inst (notMem_of_eval rfl)) hid i
  · exact (post_updateEvent_touched hinj h hw).mono fun _ _ ht => ht.versionStep i
  · exact (post_rollbackEvent_touched hinj h).mono fun _ _ ht => ht.versionStep i
  · exact (post_eraseMetadata_touched hinj h hw).mono fun _ _ ht => ht.versionStep i
  · exact (post_sweep_versionStep hinj h hw).mono fun _ _ ht => ht i

/-! ## Runs -/

/-- A log, and no history that is written and empty. -/
def Sound (H : Host D) (s : State D) : Prop := (∃ R, HasLog H s R) ∧ Whole s

theorem next_sound (hinj : Function.Injective H.sha256) (h : Sound H s) (hn : Next H s act s') :
    Sound H s' := by
  obtain ⟨⟨R, hR⟩, hw⟩ := h
  refine ⟨⟨_, next_hasLog hinj hR hn⟩, ?_⟩
  rcases next_evolves hinj hR hw hn with hev | hg
  · exact hev.whole hw
  · exact fun i => by rw [hg.versions]; exact hw i

theorem sound_of_init (h : Init s) : Sound H s := by
  obtain ⟨g, n, hinit⟩ := initialized_of_init h
  refine ⟨⟨[], hinit.hasLog⟩, fun i => ?_⟩
  rw [(hinit.absent (f := .eventVersions) (by simp) i).1]
  simp

theorem contents_of_init (h : Init s) (i : ℕ) : contentsOf s i = [] ∧ contentAt s i = none := by
  obtain ⟨g, n, hinit⟩ := initialized_of_init h
  have hnone : contentAt s i = none := by
    rw [contentAt, eventAt, (hinit.absent (f := .eventOrder) (by simp) i).1]; rfl
  refine ⟨?_, hnone⟩
  rw [contentsOf_of_none (hinit.absent (f := .eventVersions) (by simp) i).1, hnone]
  rfl

theorem sound_of_run (hinj : Function.Injective H.sha256) {tr : List (State D × Action D)} {s₀ : State D}
    (h : Sound H s₀) (hrun : Run (Next H) s₀ tr s) : Sound H s :=
  hrun.invariant (C := fun _ _ => True) (I := Sound H) h (fun _ _ _ _ hn hs => next_sound hinj hs hn)
    fun _ _ => trivial

/-- A step leaves an event alone, unless it is a call that adds a version. -/
theorem next_versionStep (hinj : Function.Injective H.sha256) (h : Sound H s) (hn : Next H s act s') (i : ℕ) :
    SameAt s s' i ∨ ∃ env op c, act = .call env op ∧ Added H env s s' i c := by
  obtain ⟨⟨R, hR⟩, hw⟩ := h
  cases act with
  | call env op =>
    obtain ⟨r, hs⟩ := id hn
    exact (step_versionStep hinj hR hw hs i).imp_right fun ⟨c, hc⟩ => ⟨env, op, c, rfl, hc⟩
  | expireTemporary f k | expirePersistent f k =>
    rw [Next] at hn; subst hn
    exact Or.inl (sameAt_of_eq fun _ _ => rfl)

/-- **Version `v` of the event at `i` was written by a call of the run**, in the invocation `env`,
    after which the event had the id `d`. -/
def WrittenIn (H : Host D) (tr : List (State D × Action D)) (s : State D) (i v : ℕ) (env : Env) (d : D) :
    Prop :=
  ∃ tr₁ s₁ op s₂ tr₂, tr = tr₁ ++ (s₁, .call env op) :: tr₂ ∧ Next H s₁ (.call env op) s₂ ∧
    Run (Next H) s₂ tr₂ s ∧ (historyOf s₁ i).length = v ∧ (historyOf s₂ i).length = v + 1 ∧
    s₂.inst .eventOrder i = some d

section
variable {tr : List (State D × Action D)} {v : ℕ} {d : D}

theorem WrittenIn.snoc (h : WrittenIn H tr s i v env d) (hn : Next H s act s') :
    WrittenIn H (tr ++ [(s, act)]) s' i v env d := by
  obtain ⟨tr₁, s₁, op, s₂, tr₂, rfl, hstep, hrun, hv⟩ := h
  exact ⟨tr₁, s₁, op, s₂, tr₂ ++ [(s, act)], by simp, hstep, .snoc hrun hn, hv⟩

theorem length_contentsOf (s : State D) (i : ℕ) : (contentsOf s i).length = (historyOf s i).length :=
  List.length_map ..

/-- **Every version was written by a call.** -/
theorem written_of_run (hinj : Function.Injective H.sha256) {s₀ : State D} (h₀ : Init s₀)
    (hrun : Run (Next H) s₀ tr s) (hv : v < (historyOf s i).length) : ∃ env d, WrittenIn H tr s i v env d := by
  induction hrun generalizing v with
  | init =>
    rw [← length_contentsOf, (contents_of_init h₀ i).1] at hv
    cases hv
  | @snoc tr s s' act hr hn ih =>
    have hsound := sound_of_run hinj (sound_of_init h₀) hr
    rcases next_versionStep hinj hsound hn i with hsame | ⟨env, op, c, rfl, hadd⟩
    · have hlen := congrArg List.length hsame.contents
      rw [length_contentsOf, length_contentsOf] at hlen
      obtain ⟨env, d, hw⟩ := ih (hlen ▸ hv)
      exact ⟨env, d, hw.snoc hn⟩
    · have hlen := congrArg List.length hadd.contents
      rw [List.length_append, List.length_singleton, length_contentsOf, length_contentsOf] at hlen
      rcases Nat.lt_or_ge v (historyOf s i).length with hlt | hge
      · obtain ⟨env, d, hw⟩ := ih hlt
        exact ⟨env, d, hw.snoc hn⟩
      · obtain rfl : v = (historyOf s i).length := by omega
        exact ⟨env, _, tr, s, op, s', [], rfl, hn, .init, rfl, hlen, hadd.order⟩

/-- A run only adds versions. -/
theorem contentsOf_prefix (hinj : Function.Injective H.sha256) {s₀ : State D} (h : Sound H s₀)
    (hrun : Run (Next H) s₀ tr s) (i : ℕ) : contentsOf s₀ i <+: contentsOf s i := by
  refine (hrun.invariant (C := fun _ _ => True) (I := fun t => Sound H t ∧ contentsOf s₀ i <+: contentsOf t i)
    ⟨h, List.prefix_refl _⟩ ?_ fun _ _ => trivial).2
  rintro t act t' - hn ⟨hsound, hpre⟩
  refine ⟨next_sound hinj hsound hn, ?_⟩
  rcases next_versionStep hinj hsound hn i with hsame | ⟨env, op, c, -, hadd⟩
  · rw [hsame.contents]; exact hpre
  · rw [hadd.contents]; exact hpre.trans (List.prefix_append ..)

/-- **The id a version had** is that of its content, in the invocation that wrote it. -/
theorem WrittenIn.id_eq (hinj : Function.Injective H.sha256) (h : History H tr s)
    (hw : WrittenIn H tr s i v env d) :
    ∃ c, (contentsOf s i)[v]? = some c ∧ d = idOf H env i c.1 := by
  obtain ⟨tr₁, s₁, op, s₂, tr₂, rfl, hstep, hafter, hv, hv', hd⟩ := hw
  obtain ⟨s₀, h₀, hrun⟩ := h
  obtain ⟨-, hbefore, -, -⟩ := hrun.split
  have hsound := sound_of_run hinj (sound_of_init h₀) hbefore
  have hpre := contentsOf_prefix hinj (next_sound hinj hsound hstep) hafter i
  rcases next_versionStep hinj hsound hstep i with hsame | ⟨env', op', c, hact, hadd⟩
  · have hlen := congrArg List.length hsame.contents
    rw [length_contentsOf, length_contentsOf] at hlen
    omega
  · cases hact
    rw [hadd.contents] at hpre
    refine ⟨c, ?_, ?_⟩
    · obtain ⟨later, hlater⟩ := hpre
      rw [← hv, ← length_contentsOf, ← hlater, List.append_assoc,
        List.getElem?_append_right (Nat.le_refl _), Nat.sub_self]
      rfl
    · rw [hadd.order] at hd
      exact (Option.some.inj hd).symm

/-- All versions of an event have one subtype. -/
theorem subtype_of_run (hinj : Function.Injective H.sha256) {s₀ : State D} (h₀ : Init s₀)
    (hrun : Run (Next H) s₀ tr s) (i : ℕ) :
    ∃ sub, (∀ c ∈ contentsOf s i, c.2 = sub) ∧ ∀ c, contentAt s i = some c → c.2 = sub := by
  refine (hrun.invariant (C := fun _ _ => True) (I := fun t => Sound H t ∧
    ∃ sub, (∀ c ∈ contentsOf t i, c.2 = sub) ∧ ∀ c, contentAt t i = some c → c.2 = sub)
    ⟨sound_of_init h₀, none, ?_⟩ ?_ fun _ _ => trivial).2
  · obtain ⟨hnil, hnone⟩ := contents_of_init h₀ i
    rw [hnil, hnone]
    simp
  · rintro t act t' - hn ⟨hsound, sub, hall, hlive⟩
    refine ⟨next_sound hinj hsound hn, ?_⟩
    rcases next_versionStep hinj hsound hn i with hsame | ⟨env, op, c, -, hadd⟩
    · exact ⟨sub, by rwa [hsame.contents], by rwa [hsame.content]⟩
    · rcases hadd.subtype with ⟨hnil, -⟩ | ⟨c₀, hc₀, hsub⟩
      · refine ⟨c.2, ?_, ?_⟩
        · rw [hadd.contents, hnil]; simp
        · rw [hadd.content]; simp
      · have hc : c.2 = sub := by
          rw [← hsub]
          exact hc₀.elim (hlive c₀) (hall c₀)
        refine ⟨sub, ?_, ?_⟩
        · rw [hadd.contents]
          simpa [or_imp, forall_and, hc] using hall
        · rw [hadd.content]
          rintro _ ⟨⟩
          exact hc

end

end AuditLedger
