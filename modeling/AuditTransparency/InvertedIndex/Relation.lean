/-
  InvertedIndex — the index as a relation between keywords and events.

  `view` reads the buckets and the hashes kept with the events as a two-way index.  A
  function of the source carries out `actions` on it: it enters an event under its
  keywords, or removes one (`view_step`).  A run of the functions is a run of these
  actions (`view_run`), so what holds of every two-way index holds here.

  * `history_index`: the buckets and the lists agree in every run in which `index_event`
    indexes only events that are not in the index.
-/
import AuditTransparency.InvertedIndex.Buckets
import AuditTransparency.Ledger.Contract
import AuditTransparency.Soroban.Writes

namespace InvertedIndex

open Soroban
open Soroban.Call
open AuditLedger (u32ToBytes openEnv)

variable {D : Type} [DecidableEq D]

/-! ## Views -/

/-- The hashes kept with an event. -/
def eventKeywords (s : State D) (e : ℕ) : List D := (s.inst .eventKeywords e).getD []

/-- The bytes of a bucket. -/
def bucket (s : State D) (h : D) : Bytes := (s.inst .keywordIndex h).getD []

/-- The cached size of a bucket. -/
def keywordCount (s : State D) (h : D) : ℕ := (s.inst .keywordCount h).getD 0

/-- The configuration in force. -/
def configOf (s : State D) : IndexConfig := (s.inst .indexConfig ()).getD .defaultConfig

/-- Events of type `y` are indexed. -/
def enabledFor (s : State D) (y : Symbol) : Bool :=
  (configOf s).indexingEnabled && (s.inst .indexTypeEnabled y).getD true

/-- The index as a relation. -/
def view (s : State D) : TwoWay D ℕ := ⟨fun h => words (bucket s h), eventKeywords s⟩

/-- Buckets hold whole words, and their sizes are cached. -/
structure Packed (s : State D) : Prop where
  aligned : ∀ h, 4 ∣ (bucket s h).length
  counted : ∀ h, keywordCount s h = (bucket s h).length / 4

/-- The keys of the index, without the settings. -/
@[reducible] def indexKeys : List IndexKey := [.keywordIndex, .keywordCount, .eventKeywords, .indexStats]

/-- The settings are the same. -/
def SameSettings (s s' : State D) : Prop :=
  s'.inst .indexConfig = s.inst .indexConfig ∧ s'.inst .indexTypeEnabled = s.inst .indexTypeEnabled

section
variable {env : Env} {s s' s'' : State D} {h : D} {e n : ℕ} {packed : Bytes}

theorem sameSettings_of_frame (h : s.Frame indexKeys s') : SameSettings s s' :=
  ⟨h.inst (notMem_of_eval rfl), h.inst (notMem_of_eval rfl)⟩

theorem SameSettings.trans (h : SameSettings s s') (h' : SameSettings s' s'') : SameSettings s s'' :=
  ⟨h'.1.trans h.1, h'.2.trans h.2⟩

theorem SameSettings.configOf_eq (h : SameSettings s s') : configOf s' = configOf s := by
  rw [configOf, h.1, configOf]

theorem SameSettings.enabledFor_eq (h : SameSettings s s') (y : Symbol) :
    enabledFor s' y = enabledFor s y := by
  rw [enabledFor, h.configOf_eq, h.2, enabledFor]

theorem packed_empty : Packed (Ledger.empty : State D) where
  aligned _ := by simp [bucket, Ledger.empty, Store.empty]
  counted _ := by simp [bucket, keywordCount, Ledger.empty, Store.empty]

/-! ## Writes -/

/-- What `store_bucket` leaves. -/
def stored (s : State D) (h : D) (packed : Bytes) : State D :=
  (s.put .keywordIndex h packed).put .keywordCount h (packed.length / 4)

theorem bucket_stored (s : State D) (h j : D) (packed : Bytes) :
    bucket (stored s h packed) j = if j = h then packed else bucket s j := by
  unfold bucket stored
  by_cases hj : j = h
  · subst hj; simp
  · simp [hj]

theorem view_stored : view (stored s h packed) =
    { view s with entries := Function.update (view s).entries h (words packed) } := by
  ext1
  · funext j
    show words (bucket (stored s h packed) j) = _
    rw [bucket_stored]
    by_cases hj : j = h
    · subst hj; simp
    · simp [hj, view]
  · funext e
    simp [view, eventKeywords, stored]

theorem Packed.stored (hs : Packed s) (hp : 4 ∣ packed.length) : Packed (stored s h packed) where
  aligned j := by
    rw [bucket_stored]
    split_ifs
    · exact hp
    · exact hs.aligned j
  counted j := by
    rw [bucket_stored]
    by_cases hj : j = h
    · subst hj
      simp [keywordCount, InvertedIndex.stored]
    · rw [if_neg hj, ← hs.counted j]
      simp [keywordCount, InvertedIndex.stored, hj]

/-- A key that is neither a bucket nor a list of hashes. -/
theorem view_put {f : IndexKey} (k : f.Key D) (v : f.Val D) (hf : f ∉ [.keywordIndex, .eventKeywords]) :
    view (s.put f k v) = view s := by
  simp only [List.mem_cons, not_or] at hf
  obtain ⟨h₁, h₂, -⟩ := hf
  ext1
  · funext j
    simp [view, bucket, Ne.symm h₁]
  · funext e
    simp [view, eventKeywords, Ne.symm h₂]

theorem Packed.put (hs : Packed s) {f : IndexKey} (k : f.Key D) (v : f.Val D)
    (hf : f ∉ [.keywordIndex, .keywordCount]) : Packed (s.put f k v) := by
  simp only [List.mem_cons, not_or] at hf
  obtain ⟨h₁, h₂, -⟩ := hf
  refine ⟨fun j => ?_, fun j => ?_⟩
  · simpa [bucket, Ne.symm h₁] using hs.aligned j
  · simpa [bucket, keywordCount, Ne.symm h₁, Ne.symm h₂] using hs.counted j

theorem view_putKeywords (ks : List D) : view (s.put .eventKeywords e ks) =
    { view s with keys := Function.update (view s).keys e ks } := by
  ext1
  · funext j
    simp [view, bucket]
  · funext e'
    by_cases he : e' = e
    · subst he; simp [view, eventKeywords]
    · simp [view, eventKeywords, he]

theorem view_delKeywords : view (s.del .eventKeywords e) =
    { view s with keys := Function.update (view s).keys e [] } := by
  ext1
  · funext j
    simp [view, bucket]
  · funext e'
    by_cases he : e' = e
    · subst he; simp [view, eventKeywords]
    · simp [view, eventKeywords, he]

theorem Packed.del (hs : Packed s) (e : ℕ) : Packed (s.del .eventKeywords e) := by
  refine ⟨fun j => ?_, fun j => ?_⟩
  · simpa [bucket] using hs.aligned j
  · simpa [bucket, keywordCount] using hs.counted j

/-! ## Functions -/

instance : Writes (layout D) indexKeys (bucketAppend h e n : Fn D Unit) := by
  unfold bucketAppend loadBucket storeBucket loadStats saveStats; infer_instance

/-- `bucket_append` lists the event, and keeps at most `n` entries. -/
theorem bucketAppend_spec (he : e < 2 ^ 32) (hs : Packed s) :
    Post (bucketAppend h e n : Fn D Unit)
      (fun _ s' => view s' = (view s).list e n h ∧ Packed s') env s := by
  have hdvd : 4 ∣ (bucket s h ++ u32ToBytes e).length := by
    rw [List.length_append]
    exact (Nat.dvd_add_right (hs.aligned h)).2 ⟨1, rfl⟩
  have hwords : words (evict (bucket s h ++ u32ToBytes e) n) = (words (bucket s h) ++ [e]).rtake n := by
    rw [words_evict hdvd, u32ToBytes, words_append he _ (hs.aligned h)]
  have hview : view (stored s h (evict (bucket s h ++ u32ToBytes e) n)) = (view s).list e n h := by
    rw [view_stored, hwords]
    rfl
  have hpacked : Packed (stored s h (evict (bucket s h ++ u32ToBytes e) n)) :=
    hs.stored (dvd_length_evict hdvd n)
  simp only [bucketAppend, loadBucket, storeBucket, loadStats, saveStats, post_bind, post_load, post_pure,
    post_store, post_doIf]
  constructor
  · intro _
    exact ⟨(view_put (s := stored s h _) _ _ (by simp)).trans hview, hpacked.put _ _ (by simp)⟩
  · intro _
    exact ⟨hview, hpacked⟩

/-- An append leaves at most `n` entries. -/
theorem length_bucketAppend_le (h : D) (e n : ℕ) :
    Post (bucketAppend h e n : Fn D Unit)
      (fun _ s' => (decodeBucket (bucket s' h)).length ≤ n) env s := by
  have hlen : ∀ s' : State D, bucket s' h = evict (bucket s h ++ u32ToBytes e) n →
      (decodeBucket (bucket s' h)).length ≤ n := by
    intro s' hs'
    rw [decodeBucket_eq_words, length_words, hs']
    exact length_evict_le ..
  simp only [bucketAppend, loadBucket, storeBucket, loadStats, saveStats, post_bind, post_load, post_pure,
    post_store, post_doIf]
  constructor
  · intro _
    exact hlen _ (by simp [bucket])
  · intro _
    exact hlen _ (by simp [bucket])

/-- An empty bucket stays as it is. -/
theorem view_unlist_nil (h0 : bucket s h = []) (e : ℕ) : (view s).unlist e h = view s := by
  ext1
  · funext j
    by_cases hj : j = h
    · subst hj
      simp [TwoWay.unlist, view, h0]
    · simp [TwoWay.unlist, hj]
  · rfl

/-- The loop of `index_event` and of `reindex_events`. -/
theorem appendAll_spec (he : e < 2 ^ 32) (hs : Packed s) (ks : List D) :
    Post (appendAll ks e n)
      (fun _ s' => view s' = ks.foldl (fun x k => x.list e n k) (view s) ∧ Packed s') env s := by
  refine post_foldlM (f := fun (_ : Unit) (h : D) => bucketAppend h e n)
    (fun done _ s' => view s' = done.foldl (fun x k => x.list e n k) (view s) ∧ Packed s') ks () s []
    ⟨rfl, hs⟩ ?_
  rintro done h rest _ s₁ - ⟨hview, hp⟩
  refine (bucketAppend_spec he hp).mono ?_
  rintro _ s₂ ⟨hview', hp'⟩
  refine ⟨?_, hp'⟩
  rw [hview', hview, List.foldl_append]
  rfl

instance : Writes (layout D) indexKeys (removeEventFromIndex e : Fn D Unit) := by
  unfold removeEventFromIndex loadBucket storeBucket; infer_instance

instance (sha256 : Bytes → D) (c : IndexConfig) (y : Symbol) (m : Bytes) :
    Writes (layout D) indexKeys (reindexEvent sha256 c e y m) := by
  unfold reindexEvent isIndexingEnabledForType getIndexConfig appendAll; infer_instance

/-- `remove_event_from_index` removes the event. -/
theorem removeEventFromIndex_spec (hs : Packed s) :
    Post (removeEventFromIndex e : Fn D Unit)
      (fun _ s' => view s' = (view s).remove e ∧ Packed s') env s := by
  simp only [removeEventFromIndex, post_bind, post_load, post_clear]
  refine (post_foldlM (fun done _ s' =>
    view s' = done.foldl (fun x k => x.unlist e k) (view s) ∧ Packed s')
    ((s.inst .eventKeywords e).getD []) () s [] ⟨rfl, hs⟩ ?_).mono ?_
  · rintro done h rest _ s₁ - ⟨hview, hp⟩
    simp only [loadBucket, storeBucket, post_bind, post_load, post_pure, post_doIf, post_store]
    rw [List.foldl_append, ← hview]
    constructor
    · intro _
      refine ⟨?_, hp.stored (dvd_length_withoutEvent ..)⟩
      refine view_stored.trans ?_
      rw [words_withoutEvent]
      rfl
    · intro h0
      exact ⟨(view_unlist_nil (not_not.1 h0) e).symm, hp⟩
  · rintro _ s' ⟨hview, hp⟩
    refine ⟨?_, hp.del e⟩
    rw [view_delKeywords, hview, TwoWay.keys_foldl_unlist]
    rfl

@[simp] theorem post_getIndexConfig {R : IndexConfig → State D → Prop} :
    Post (getIndexConfig : Fn D IndexConfig) R env s ↔ R (configOf s) s := by
  simp [getIndexConfig, configOf]

@[simp] theorem post_isIndexingEnabledForType {y : Symbol} {R : Bool → State D → Prop} :
    Post (isIndexingEnabledForType y : Fn D Bool) R env s ↔ R (enabledFor s y) s := by
  simp only [isIndexingEnabledForType, enabledFor, post_bind, post_getIndexConfig, post_ite, post_pure,
    post_load]
  rcases (configOf s).indexingEnabled with _ | _
  · simp
  · simp

end

/-! ## Actions -/

variable (sha256 : Bytes → D)

/-- What indexing an event enters. -/
def entering (s : State D) (e : ℕ) (y : Symbol) (m : Bytes) : List (TwoWay.Action D ℕ) :=
  if enabledFor s y ∧ keywordsOf sha256 (configOf s) m ≠ [] then
    [.enter e (keywordsOf sha256 (configOf s) m) (configOf s).bucketMaxEntries]
  else []

/-- What reindexing one event does. -/
def reentering (s : State D) (loadEvent : ℕ → Option (Symbol × Bytes)) (e : ℕ) :
    List (TwoWay.Action D ℕ) :=
  match loadEvent e with
  | some event => .remove e :: entering sha256 s e event.1 event.2
  | none => []

/-- What a function does to the index. -/
def actions (s : State D) : Op → List (TwoWay.Action D ℕ)
  | .indexEvent e y m => entering sha256 s e.toNat y m
  | .reindexEvents a b f => (batchOf a.toNat b.toNat).flatMap (reentering sha256 s f)
  | .removeEventFromIndex e => [.remove e.toNat]
  | .initIndexConfig _ | .setIndexTypeEnabled .. => []

section
variable {sha256} {env : Env} {s s' : State D} {e : ℕ} {y : Symbol} {m : Bytes}

theorem entering_congr (h : SameSettings s s') (e : ℕ) (y : Symbol) (m : Bytes) :
    entering sha256 s' e y m = entering sha256 s e y m := by
  rw [entering, h.configOf_eq, h.enabledFor_eq, entering]

/-- The index after an event has been listed under its keywords, and they have been kept with it. -/
theorem view_entered {ks : List D} {n : ℕ} {x : TwoWay D ℕ}
    (h : view s' = ks.foldl (fun x k => x.list e n k) x) :
    view (s'.put .eventKeywords e ks) = x.enter e ks n := by
  rw [view_putKeywords, h, TwoWay.keys_foldl_list]
  rfl

theorem indexEvent_spec (he : e < 2 ^ 32) (hs : Packed s) :
    Post (indexEvent sha256 e y m)
      (fun _ s' => view s' = (view s).applyAll (entering sha256 s e y m) ∧ Packed s') env s := by
  simp only [indexEvent, post_bind, post_isIndexingEnabledForType, post_doIf, post_getIndexConfig,
    entering]
  constructor
  · intro hen
    constructor
    · intro hks
      rw [if_pos ⟨hen, hks⟩]
      refine (appendAll_spec he hs _).mono ?_
      rintro _ s₁ ⟨hview, hp⟩
      simp only [loadStats, saveStats, post_bind, post_store, post_load, post_pure]
      refine ⟨?_, (hp.put _ _ (by simp)).put _ _ (by simp)⟩
      rw [view_put _ _ (by simp), view_entered hview]
      rfl
    · intro hks
      rw [if_neg fun h => hks h.2]
      exact ⟨rfl, hs⟩
  · intro hen
    rw [if_neg fun h => hen h.1]
    exact ⟨rfl, hs⟩

theorem reindexEvent_spec (he : e < 2 ^ 32) (hs : Packed s) :
    Post (reindexEvent sha256 (configOf s) e y m)
      (fun _ s' => view s' = (view s).applyAll (.remove e :: entering sha256 s e y m) ∧ Packed s')
      env s := by
  simp only [reindexEvent, post_bind]
  refine ((removeEventFromIndex_spec hs).and (Writes.frame (W := indexKeys) env s)).mono ?_
  rintro _ s₁ ⟨⟨hview, hp⟩, hframe⟩
  have hset := sameSettings_of_frame hframe
  simp only [post_isIndexingEnabledForType, post_doIf, post_bind, post_store, entering,
    hset.enabledFor_eq y]
  constructor
  · intro hen
    refine (appendAll_spec he hp _).mono ?_
    rintro _ s₂ ⟨hview', hp'⟩
    constructor
    · intro hks
      rw [if_pos ⟨hen, hks⟩, view_entered hview', hview]
      exact ⟨rfl, hp'.put _ _ (by simp)⟩
    · intro hks
      rw [if_neg fun h => hks h.2, hview', not_not.1 hks, hview]
      exact ⟨rfl, hp'⟩
  · intro hen
    rw [if_neg fun h => hen h.1, hview]
    exact ⟨rfl, hp⟩

/-- The events of a batch are `u32` values. -/
theorem lt_of_mem_batchOf {start stop : UInt32} (h : e ∈ batchOf start.toNat stop.toNat) :
    e < 2 ^ 32 := by
  have hstop := stop.toNat_lt
  rw [batchOf, List.mem_range'_1] at h
  omega

theorem reindexEvents_spec {start stop : UInt32} {f : ℕ → Option (Symbol × Bytes)} (hs : Packed s) :
    Post (reindexEvents sha256 start.toNat stop.toNat f) (fun _ s' =>
      view s' = (view s).applyAll ((batchOf start.toNat stop.toNat).flatMap (reentering sha256 s f)) ∧
        Packed s') env s := by
  simp only [reindexEvents, post_bind, post_getIndexConfig]
  refine (post_foldlM (fun done _ s' =>
    view s' = (view s).applyAll (done.flatMap (reentering sha256 s f)) ∧ Packed s' ∧ SameSettings s s')
    (batchOf start.toNat stop.toNat) start.toNat s [] ⟨rfl, hs, rfl, rfl⟩ ?_).mono ?_
  · rintro done e' rest _ s₁ hl ⟨hview, hp, hset⟩
    have hmem : e' ∈ batchOf start.toNat stop.toNat := by
      rw [← List.nil_append (batchOf _ _), hl]
      simp
    have he' := lt_of_mem_batchOf hmem
    simp only [post_bind, post_ifSome, post_pure]
    constructor
    · intro event hevent
      rw [← hset.configOf_eq]
      refine ((reindexEvent_spec he' hp).and (Writes.frame (W := indexKeys) env s₁)).mono ?_
      rintro _ s₂ ⟨⟨hview', hp'⟩, hframe⟩
      refine ⟨?_, hp', hset.trans (sameSettings_of_frame hframe)⟩
      rw [hview', hview, entering_congr hset, List.flatMap_append, TwoWay.applyAll, TwoWay.applyAll,
        TwoWay.applyAll, List.foldl_append, List.flatMap_singleton, reentering, hevent]
    · intro hnone
      refine ⟨?_, hp, hset⟩
      rw [hview, List.flatMap_append, List.flatMap_singleton, reentering, hnone, List.append_nil]
  · rintro _ s₁ ⟨hview, hp, -⟩
    simp only [loadStats, saveStats, post_bind, post_load, post_pure, post_store]
    exact ⟨(view_put _ _ (by simp)).trans hview, hp.put _ _ (by simp)⟩

/-- **What a step does to the index.** -/
theorem view_step {op : Op} {r : Ret} (h : (exec sha256 op).run env s = .ok (r, s')) (hs : Packed s) :
    view s' = (view s).applyAll (actions sha256 s op) ∧ Packed s' := by
  refine Post.of_run (m := exec sha256 op)
    (Q := fun _ s' => view s' = (view s).applyAll (actions sha256 s op) ∧ Packed s') ?_ h
  cases op with
  | indexEvent e y m =>
    simp only [exec, post_bind, post_pure]
    exact indexEvent_spec e.toNat_lt hs
  | reindexEvents a b f =>
    simp only [exec, post_bind, post_pure]
    exact reindexEvents_spec hs
  | removeEventFromIndex e =>
    simp only [exec, post_bind, post_pure]
    exact removeEventFromIndex_spec hs
  | initIndexConfig c =>
    simp only [exec, initIndexConfig, post_bind, post_pure, post_store]
    exact ⟨view_put _ _ (by simp), hs.put _ _ (by simp)⟩
  | setIndexTypeEnabled y b =>
    simp only [exec, setIndexTypeEnabled, post_bind, post_pure, post_store]
    exact ⟨view_put _ _ (by simp), hs.put _ _ (by simp)⟩

end

/-! ## Runs -/

/-- The actions of a trace, each with the index it is carried out on. -/
def stagesOf (tr : List (State D × (Env × Op))) : List (TwoWay D ℕ × TwoWay.Action D ℕ) :=
  tr.flatMap fun p => TwoWay.stages (view p.1) (actions sha256 p.1 p.2.2)

/-- `index_event` indexes only an event that is not in the index. -/
def IndexesNew (s : State D) (c : Env × Op) : Prop :=
  match c.2 with
  | .indexEvent e y m => entering sha256 s e.toNat y m ≠ [] → eventKeywords s e.toNat = []
  | _ => True

section
variable {sha256} {s s' : State D} {tr : List (State D × (Env × Op))}

/-- **A run of the functions is a run of the actions.** -/
theorem view_run (h : Run (Steps (exec sha256)) Ledger.empty tr s) :
    Run TwoWay.Step TwoWay.empty (stagesOf sha256 tr) (view s) ∧ Packed s := by
  induction h with
  | init => exact ⟨.init, packed_empty⟩
  | @snoc tr s s' c _ hs ih =>
    obtain ⟨hrun, hp⟩ := ih
    obtain ⟨r, hr⟩ := hs
    obtain ⟨hview, hp'⟩ := view_step hr hp
    refine ⟨?_, hp'⟩
    rw [stagesOf, List.flatMap_append, List.flatMap_singleton, hview]
    exact hrun.append (TwoWay.run_stages ..)

/-- What indexing an event enters is new, where the event is. -/
theorem new_entering {x : TwoWay D ℕ} {e : ℕ} {y : Symbol} {m : Bytes}
    (hnew : entering sha256 s e y m ≠ [] → x.keys e = []) :
    ∀ q ∈ TwoWay.stages x (entering sha256 s e y m), q.2.New q.1 := by
  intro q hq
  unfold entering at hnew hq
  split_ifs at hnew hq
  · obtain rfl := List.mem_singleton.1 hq
    exact ⟨hnew (by simp), extractKeywords_nodup m⟩
  · cases hq

/-- Reindexing removes an event before it enters it. -/
theorem new_reentering {f : ℕ → Option (Symbol × Bytes)} (es : List ℕ) (x : TwoWay D ℕ) :
    ∀ q ∈ TwoWay.stages x (es.flatMap (reentering sha256 s f)), q.2.New q.1 := by
  induction es generalizing x with
  | nil => exact fun q hq => by cases hq
  | cons e es ih =>
    rw [List.flatMap_cons, TwoWay.stages_append, List.forall_mem_append]
    refine ⟨?_, ih _⟩
    rw [reentering]
    rcases f e with _ | event
    · exact fun q hq => by cases hq
    · rw [TwoWay.stages, List.forall_mem_cons]
      exact ⟨trivial, new_entering fun _ => TwoWay.keys_remove_self⟩

theorem new_stagesOf (hnew : ∀ p ∈ tr, IndexesNew sha256 p.1 p.2) :
    ∀ q ∈ stagesOf sha256 tr, q.2.New q.1 := by
  intro q hq
  obtain ⟨⟨s, env, op⟩, hp, hq⟩ := List.mem_flatMap.1 hq
  have hop := hnew _ hp
  cases op with
  | indexEvent e y m =>
    have hfresh : entering sha256 s e.toNat y m ≠ [] → (view s).keys e.toNat = [] := hop
    exact new_entering hfresh q hq
  | reindexEvents a b f => exact new_reentering _ _ q hq
  | removeEventFromIndex e =>
    obtain rfl := List.mem_singleton.1 hq
    trivial
  | initIndexConfig c => cases hq
  | setIndexTypeEnabled y b => cases hq

/-- **The two copies of the index agree**, the cached sizes are right, and an append leaves at
    most `bucket_max_entries` entries; while no append finds a full bucket, the index is
    complete. -/
theorem history_index (h : Run (Steps (exec sha256)) Ledger.empty tr s)
    (hnew : ∀ p ∈ tr, IndexesNew sha256 p.1 p.2) :
    (∀ k, (decodeBucket (bucket s k)).Nodup ∧ (∀ e ∈ decodeBucket (bucket s k), k ∈ eventKeywords s e) ∧
      keywordCount s k = (decodeBucket (bucket s k)).length) ∧
    (∀ env s₁ k e n s₂, (bucketAppend k e n : Fn D Unit).run env s₁ = .ok ((), s₂) →
      (decodeBucket (bucket s₂ k)).length ≤ n) ∧
    ((∀ q ∈ stagesOf sha256 tr, q.2.Roomy q.1) →
      ∀ e, ∀ k ∈ eventKeywords s e, e ∈ decodeBucket (bucket s k)) := by
  obtain ⟨hrun, hp⟩ := view_run h
  have hcons := TwoWay.consistent_of_run hrun (new_stagesOf hnew)
  refine ⟨fun k => ?_, fun env s₁ k e n s₂ => (length_bucketAppend_le k e n).of_run, ?_⟩
  · rw [decodeBucket_eq_words, length_words, hp.counted]
    exact ⟨hcons.nodup k, hcons.keys k, rfl⟩
  · intro hroom e k hk
    rw [decodeBucket_eq_words]
    exact TwoWay.complete_of_run hrun (new_stagesOf hnew) hroom e k hk

end

/-- Two events are indexed, reindexed under other settings, one is removed, and a third is indexed. -/
def indexScript : List (Env × Op) :=
  [(openEnv 0, .indexEvent 0 "a" (ascii "wire payment")),
    (openEnv 0, .indexEvent 1 "a" (ascii "Wire; fee")),
    (openEnv 1, .initIndexConfig ⟨true, 3, 32, 20, 2⟩), (openEnv 1, .setIndexTypeEnabled "b" false),
    (openEnv 2, .reindexEvents 0 2 fun e =>
      if e = 0 then some ("a", ascii "bank wire") else some ("b", [])),
    (openEnv 3, .removeEventFromIndex 1), (openEnv 4, .indexEvent 2 "a" (ascii "bank"))]

theorem history_index_indexScript :
    ∃ tr s, Run (Steps (exec (id : Bytes → Bytes))) Ledger.empty tr s ∧ tr.map Prod.snd = indexScript ∧
      (∀ k, (decodeBucket (bucket s k)).Nodup ∧ ∀ e ∈ decodeBucket (bucket s k), k ∈ eventKeywords s e) ∧
      (∀ e, ∀ k ∈ eventKeywords s e, e ∈ decodeBucket (bucket s k)) ∧
      decodeBucket (bucket s (ascii "bank")) = [0, 2] := by
  obtain ⟨s, hs⟩ : ∃ s, play (exec id) Ledger.empty indexScript = some s :=
    Option.isSome_iff_exists.1 (by decide +kernel)
  have hbank : (play (exec id) Ledger.empty indexScript).map (fun s =>
      decodeBucket (bucket s (ascii "bank"))) = some [0, 2] := by decide +kernel
  rw [hs, Option.map_some, Option.some.injEq] at hbank
  have hnew : (traceOf (exec id) Ledger.empty indexScript).all (fun p =>
      match p.2.2 with
      | .indexEvent e _ _ => decide (eventKeywords p.1 e.toNat = [])
      | _ => true) = true := by decide +kernel
  have hroom : (stagesOf id (traceOf (exec id) Ledger.empty indexScript)).all (fun q =>
      match q.2 with
      | .enter _ ks n => ks.all fun k => decide ((q.1.entries k).length < n)
      | .remove _ => true) = true := by decide +kernel
  have h := history_index (run_of_play hs) fun p hp => by
    have hp' := List.all_eq_true.1 hnew p hp
    obtain ⟨s₁, env, op⟩ := p
    cases op with
    | indexEvent e y m => exact fun _ => of_decide_eq_true hp'
    | _ => trivial
  refine ⟨_, s, run_of_play hs, map_snd_traceOf hs, fun k => ⟨(h.1 k).1, (h.1 k).2.1⟩, h.2.2 ?_, hbank⟩
  rintro ⟨x, a⟩ hq
  have hq' := List.all_eq_true.1 hroom _ hq
  cases a with
  | enter e ks n => exact fun k hk => of_decide_eq_true (List.all_eq_true.1 hq' k hk)
  | remove e => trivial

/-- An event is reindexed before `index_event` has been called for it. -/
def reindexedScript : List (Env × Op) :=
  [(openEnv 0, .reindexEvents 0 1 fun _ => some ("a", ascii "wire")),
    (openEnv 1, .indexEvent 0 "a" (ascii "wire"))]

/-- The event is in its bucket twice. -/
theorem reindexed_event_repeated :
    ∃ tr s, Run (Steps (exec (id : Bytes → Bytes))) Ledger.empty tr s ∧
      tr.map Prod.snd = reindexedScript ∧
      ¬(decodeBucket (bucket s (ascii "wire"))).Nodup := by
  obtain ⟨s, hs⟩ : ∃ s, play (exec id) Ledger.empty reindexedScript = some s :=
    Option.isSome_iff_exists.1 (by decide +kernel)
  have hwire : (play (exec id) Ledger.empty reindexedScript).map (fun s =>
      decodeBucket (bucket s (ascii "wire"))) = some [0, 0] := by decide +kernel
  rw [hs, Option.map_some, Option.some.injEq] at hwire
  refine ⟨_, s, run_of_play hs, map_snd_traceOf hs, ?_⟩
  rw [hwire]
  decide

end InvertedIndex
