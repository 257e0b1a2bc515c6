/-
  InvertedIndex — search by keyword.

  A search reads a page of one bucket.  Its pages, one after the other, are the bucket
  (`pages_found`); the bucket is what the events have been indexed under.

  * `search_complete`: the pages of a non-empty keyword list the events that have it, after any
    sequence of `index_event` calls, and still do after `reindex_events`.
-/
import AuditTransparency.InvertedIndex.Relation
import AuditTransparency.InvertedIndex.Words
import AuditTransparency.Soroban.Pages

namespace InvertedIndex

open Soroban
open Soroban.Call
open AuditLedger (openEnv)

variable {D : Type} [DecidableEq D] (sha256 : Bytes → D)

/-! ## Functions -/

/-- `MAX_SEARCH_PAGE_SIZE` -/
def maxSearchPageSize : ℕ := 100

/-- `saturating_mul` of a `w`-bit unsigned type -/
def saturatingMul (w a b : ℕ) : ℕ := min (a * b) (2 ^ w - 1)

structure KeywordSearchResult (D : Type) where
  eventIndex : ℕ
  keywordHash : D
  deriving DecidableEq

/-- `search_events_by_keyword`.  The bytes of a bucket are counted in a `u32`, so `start + effective_size`
    does not overflow. -/
def searchEventsByKeyword (keyword : Bytes) (page pageSize : ℕ) :
    Fn D (List (KeywordSearchResult D)) := do
  if keyword = [] ∨ pageSize = 0 then return []
  else do
    let effectiveSize := min pageSize maxSearchPageSize
    let kwHash := sha256 (keyword.map toLower)
    let packed ← loadBucket kwHash
    if packed = [] then return []
    else
      let totalEntries := packed.length / 4
      let start := saturatingMul 32 page effectiveSize
      if start ≥ totalEntries then return []
      else
        let stop := min (start + effectiveSize) totalEntries
        return (List.range' start (stop - start)).map fun i => ⟨wordAt packed (i * 4), kwHash⟩

/-- `keyword_entry_count` -/
def keywordEntryCount (keyword : Bytes) : Fn D ℕ := do
  if keyword = [] then return 0
  else return (← get .keywordCount (sha256 (keyword.map toLower))).getD 0

/-! ## Pages -/

variable {sha256} {env : Env} {s s' : State D} {keyword : Bytes} {page size : ℕ}

theorem loadBucket_run (h : D) : (loadBucket h : Fn D Bytes).run env s = .ok (bucket s h, s) := by
  rw [loadBucket, run_bind_ok _ _ (run_load ..), run_pure, bucket]

/-- The bucket of a keyword. -/
def found (sha256 : Bytes → D) (s : State D) (keyword : Bytes) : List (KeywordSearchResult D) :=
  let kwHash := sha256 (keyword.map toLower)
  (words (bucket s kwHash)).map fun e => ⟨e, kwHash⟩

/-- **A page** of a keyword. -/
theorem searchEventsByKeyword_run (hk : keyword ≠ []) (hsize : 0 < size)
    (hlen : (found sha256 s keyword).length < 2 ^ 32) :
    (searchEventsByKeyword sha256 keyword page size).run env s =
      .ok (((found sha256 s keyword).drop (page * min size maxSearchPageSize)).take
        (min size maxSearchPageSize), s) := by
  have hsize' : size ≠ 0 := by omega
  have hcount : (found sha256 s keyword).length = (bucket s (sha256 (keyword.map toLower))).length / 4 := by
    rw [found, List.length_map, length_words]
  rw [searchEventsByKeyword, if_neg (by simp [hk, hsize']), run_bind_ok _ _ (loadBucket_run _), ← hcount]
  by_cases hempty : bucket s (sha256 (keyword.map toLower)) = []
  · rw [if_pos hempty, run_pure, found, hempty, words_nil]
    simp
  · rw [if_neg hempty, saturatingMul]
    by_cases hpage : (found sha256 s keyword).length ≤ page * min size maxSearchPageSize
    · rw [if_pos (by omega), run_pure, List.drop_of_length_le hpage, List.take_nil]
    · rw [if_neg (by omega), run_pure, Nat.min_eq_left (by omega)]
      have hwindow := map_range'_getElem? (l := words (bucket s (sha256 (keyword.map toLower))))
        (f := fun i => (⟨wordAt (bucket s (sha256 (keyword.map toLower))) (i * 4),
          sha256 (keyword.map toLower)⟩ : KeywordSearchResult D))
        (g := fun e => ⟨e, sha256 (keyword.map toLower)⟩) (page * min size maxSearchPageSize)
        (min size maxSearchPageSize) fun i e he => by rw [wordAt_eq he]
      rw [length_words] at hwindow
      rw [hcount, hwindow, found, List.map_take, List.map_drop]

/-- The pages of a keyword, up to the first that is empty, list `results`. -/
def Pages (sha256 : Bytes → D) (s : State D) (keyword : Bytes) (size : ℕ)
    (results : List (KeywordSearchResult D)) : Prop :=
  ∃ ps : List (List (KeywordSearchResult D)), ps.flatten = results ∧ ps.length < 2 ^ 32 ∧
    (∀ page p, ps[page]? = some p → p ≠ [] ∧
      ∀ env, (searchEventsByKeyword sha256 keyword page size).run env s = .ok (p, s)) ∧
    ∀ env, (searchEventsByKeyword sha256 keyword ps.length size).run env s = .ok ([], s)

/-- **The pages of a keyword list its bucket.** -/
theorem pages_found (hk : keyword ≠ []) (hsize : 0 < size)
    (hlen : (found sha256 s keyword).length < 2 ^ 32) :
    Pages sha256 s keyword size (found sha256 s keyword) := by
  generalize hl : found sha256 s keyword = l at hlen
  have hrun : ∀ env page, (searchEventsByKeyword sha256 keyword page size).run env s =
      .ok ((l.drop (page * min size maxSearchPageSize)).take (min size maxSearchPageSize), s) :=
    fun env page => hl ▸ searchEventsByKeyword_run hk hsize (hl ▸ hlen)
  have hk : 0 < min size maxSearchPageSize := Nat.lt_min.2 ⟨hsize, by decide⟩
  generalize min size maxSearchPageSize = k at hrun hk
  obtain ⟨ps, hps, hpage, hafter⟩ := exists_windows l hk
  refine ⟨ps, hps, ?_, fun page p hp => ?_, fun env => ?_⟩
  · -- a last page starts at its number at least
    by_contra hmany
    obtain ⟨-, hlt⟩ := hpage (ps.length - 1) _ (List.getElem?_eq_getElem (by omega))
    have := Nat.le_mul_of_pos_right (ps.length - 1) hk
    omega
  · obtain ⟨rfl, hlt⟩ := hpage page p hp
    exact ⟨window_ne_nil hk hlt, fun env => hrun env page⟩
  · rw [hrun, List.drop_of_length_le (hafter _ (Nat.le_refl _)), List.take_nil]

/-- `keyword_entry_count` -/
theorem keywordEntryCount_run (hk : keyword ≠ []) (hs : Packed s) :
    (keywordEntryCount sha256 keyword).run env s = .ok ((found sha256 s keyword).length, s) := by
  rw [keywordEntryCount, if_neg hk, run_bind_ok _ _ (run_load ..), run_pure, found, List.length_map,
    length_words, ← hs.counted]
  rfl

/-! ## Indexing -/

/-- An event that is indexed: its index, its type and its metadata. -/
abbrev Logged := UInt32 × Symbol × Bytes

/-- The call of `index_event`. -/
def Logged.op (v : Logged) : Op := .indexEvent v.1 v.2.1 v.2.2

variable {c : IndexConfig} {events : List Logged} {h : D} {tr : List (State D × (Env × Op))}

/-- The events among whose keywords is the one with the hash `h`. -/
def matching (sha256 : Bytes → D) (c : IndexConfig) (events : List Logged) (h : D) : List ℕ :=
  (events.filter fun v => h ∈ keywordsOf sha256 c v.2.2).map fun v => v.1.toNat

/-- The keywords are kept with the events, and nothing with other indices. -/
structure Kept (sha256 : Bytes → D) (c : IndexConfig) (events : List Logged) (x : TwoWay D ℕ) :
    Prop where
  own : ∀ v ∈ events, x.keys v.1.toNat = keywordsOf sha256 c v.2.2
  others : ∀ i, (∀ v ∈ events, v.1.toNat ≠ i) → x.keys i = []

/-- **No bucket is over its capacity** when the events are indexed. -/
def Fits (sha256 : Bytes → D) (c : IndexConfig) (events : List Logged) : Prop :=
  ∀ h, (matching sha256 c events h).length ≤ c.bucketMaxEntries

theorem matching_concat (events : List Logged) (v : Logged) (h : D) :
    matching sha256 c (events ++ [v]) h = matching sha256 c events h ++
      if h ∈ keywordsOf sha256 c v.2.2 then [v.1.toNat] else [] := by
  rw [matching, List.filter_append, List.map_append, matching, List.filter_singleton]
  split_ifs with hv
  · simp [hv]
  · simp [hv]

theorem Fits.of_concat {v : Logged} (hf : Fits sha256 c (events ++ [v])) : Fits sha256 c events := by
  intro h
  have := hf h
  rw [matching_concat, List.length_append] at this
  omega

/-- One more event, entered where indexing is enabled. -/
theorem matching_enter {x : TwoWay D ℕ} {v : Logged}
    (hx : ∀ h, x.entries h = matching sha256 c events h) (hf : Fits sha256 c (events ++ [v])) (h : D) :
    (x.enter v.1.toNat (keywordsOf sha256 c v.2.2) c.bucketMaxEntries).entries h =
      matching sha256 c (events ++ [v]) h := by
  have hnodup : (keywordsOf sha256 c v.2.2).Nodup := extractKeywords_nodup _
  rw [TwoWay.entries_enter hnodup, hx, matching_concat]
  split_ifs with hv
  · have hlen := hf h
    rw [matching_concat, if_pos hv] at hlen
    rw [TwoWay.rtake_eq_self hlen]
  · rw [List.append_nil]

theorem Kept.enter {x : TwoWay D ℕ} {v : Logged} {n : ℕ} (hx : Kept sha256 c events x)
    (hnew : ∀ w ∈ events, w.1.toNat ≠ v.1.toNat) :
    Kept sha256 c (events ++ [v]) (x.enter v.1.toNat (keywordsOf sha256 c v.2.2) n) := by
  refine ⟨fun w hw => ?_, fun i hi => ?_⟩
  · rcases List.mem_append.1 hw with hw | hw
    · rw [TwoWay.keys_enter_of_ne (hnew w hw), hx.own w hw]
    · rw [List.mem_singleton.1 hw, TwoWay.keys_enter_self]
  · rw [TwoWay.keys_enter_of_ne (Ne.symm (hi v (by simp)))]
    exact hx.others i fun w hw => hi w (List.mem_append_left _ hw)

/-- Entering an event without keywords that is not in the index changes nothing. -/
theorem enter_nil {x : TwoWay D ℕ} {e n : ℕ} (hx : x.keys e = []) : x.enter e [] n = x := by
  ext1
  · rfl
  · show Function.update x.keys e [] = x.keys
    rw [← hx, Function.update_eq_self]

/-- The settings are not changed by indexing. -/
instance (ks : List D) (e n : ℕ) : Writes (layout D) indexKeys (appendAll ks e n : Fn D Unit) := by
  unfold appendAll; infer_instance

instance : Reads (loadStats : Fn D IndexStats) := by
  unfold loadStats; infer_instance

instance (stats : IndexStats) : Writes (layout D) indexKeys (saveStats stats : Fn D Unit) := by
  unfold saveStats; infer_instance

instance : Reads (getIndexConfig : Fn D IndexConfig) := by
  unfold getIndexConfig; infer_instance

instance (y : Symbol) : Reads (isIndexingEnabledForType y : Fn D Bool) := by
  unfold isIndexingEnabledForType; infer_instance

instance (e : ℕ) (y : Symbol) (m : Bytes) : Writes (layout D) indexKeys (indexEvent sha256 e y m) := by
  simp only [indexEvent]
  infer_instance

instance (a b : ℕ) (f : ℕ → Option (Symbol × Bytes)) :
    Writes (layout D) indexKeys (reindexEvents sha256 a b f) := by
  unfold reindexEvents
  infer_instance

/-- The index lists the events under their keywords. -/
structure Lists (sha256 : Bytes → D) (c : IndexConfig) (events : List Logged) (x : TwoWay D ℕ) :
    Prop where
  kept : Kept sha256 c events x
  listed : ∀ h, (x.entries h).Perm (matching sha256 c events h)

/-- An index that holds nothing. -/
structure Blank (s : State D) : Prop where
  view : view s = TwoWay.empty
  packed : Packed s

/-- What `init_index_config` leaves of a new index. -/
theorem blank_configured (c : IndexConfig) : Blank ((Ledger.empty : State D).put .indexConfig () c) where
  view := (view_put _ _ (by simp)).trans (by ext1 <;> rfl)
  packed := packed_empty.put _ _ (by simp)

/-- The index of `events`, with the settings of `s₀`. -/
structure IndexOf (sha256 : Bytes → D) (s₀ : State D) (events : List Logged) (s : State D) : Prop where
  settings : SameSettings s₀ s
  packed : Packed s
  lists : Lists sha256 (configOf s₀) events (view s)

theorem Logged.applyAll_actions {x : TwoWay D ℕ} (v : Logged) (hen : enabledFor s v.2.1 = true)
    (hnew : x.keys v.1.toNat = []) :
    x.applyAll (actions sha256 s v.op) =
      x.enter v.1.toNat (keywordsOf sha256 (configOf s) v.2.2) (configOf s).bucketMaxEntries := by
  show x.applyAll (entering sha256 s v.1.toNat v.2.1 v.2.2) = _
  rw [entering, hen]
  by_cases hks : keywordsOf sha256 (configOf s) v.2.2 = []
  · rw [if_neg (by simp [hks]), hks, enter_nil hnew]
    rfl
  · rw [if_pos ⟨rfl, hks⟩]
    rfl

theorem Logged.sameSettings {v : Logged} {r : Ret} (hr : (exec sha256 v.op).run env s = .ok (r, s')) :
    SameSettings s s' := by
  have hw : Writes (layout D) indexKeys (exec sha256 v.op) :=
    (inferInstance : Writes (layout D) indexKeys
      (do indexEvent sha256 v.1.toNat v.2.1 v.2.2; return Ret.unit))
  exact sameSettings_of_frame (hw.of_run hr)

/-- **A run of `index_event`** lists the events in its order. -/
theorem run_indexEvents {s₀ : State D} (hrun : Run (Steps (exec sha256)) s₀ tr s) (hblank : Blank s₀)
    (hops : tr.map (fun p => p.2.2) = events.map Logged.op) (hnew : (events.map (·.1)).Nodup)
    (hen : ∀ v ∈ events, enabledFor s₀ v.2.1 = true) (hf : Fits sha256 (configOf s₀) events) :
    IndexOf sha256 s₀ events s ∧ ∀ h, (view s).entries h = matching sha256 (configOf s₀) events h := by
  induction hrun generalizing events with
  | init =>
    obtain rfl : events = [] := List.map_eq_nil_iff.1 hops.symm
    have hlisted : ∀ h, (view s₀).entries h = [] := fun h => by rw [hblank.view]; rfl
    refine ⟨⟨⟨rfl, rfl⟩, hblank.packed, ⟨fun v hv => absurd hv List.not_mem_nil, fun i _ => ?_⟩,
      fun h => ?_⟩, hlisted⟩
    · rw [hblank.view]; rfl
    · rw [hlisted]; rfl
  | @snoc tr s s' call _ hs ih =>
    rw [List.map_append] at hops
    obtain ⟨events, last, rfl, hbefore, hlast⟩ := List.map_eq_append_iff.1 hops.symm
    obtain ⟨v, rfl, hv⟩ := List.map_eq_singleton_iff.1 hlast
    rw [List.map_append, List.nodup_append] at hnew
    obtain ⟨hin, hin'⟩ := ih hbefore.symm hnew.1 (fun w hw => hen w (List.mem_append_left _ hw))
      hf.of_concat
    obtain ⟨r, hr⟩ := hs
    rw [show call.2 = v.op from hv.symm] at hr
    obtain ⟨hview, hp⟩ := view_step hr hin.packed
    have hnew' : ∀ w ∈ events, w.1.toNat ≠ v.1.toNat := fun w hw he =>
      hnew.2.2 w.1 (List.mem_map_of_mem hw) v.1 (by simp) (UInt32.toNat_inj.1 he)
    rw [v.applyAll_actions (by rw [hin.settings.enabledFor_eq]; exact hen v (by simp))
      (hin.lists.kept.others _ hnew'), hin.settings.configOf_eq] at hview
    have hentries : ∀ h, (view s').entries h = matching sha256 (configOf s₀) (events ++ [v]) h := by
      rw [hview]
      exact matching_enter hin' hf
    refine ⟨⟨hin.settings.trans (Logged.sameSettings hr), hp, ?_, fun h => by rw [hentries]⟩, hentries⟩
    rw [hview]
    exact hin.lists.kept.enter hnew'

/-! ## Indexing again -/

/-- The source of metadata knows nothing but the events. -/
def Knows (events : List Logged) (loadEvent : ℕ → Option (Symbol × Bytes)) : Prop :=
  ∀ e event, loadEvent e = some event → ∃ v ∈ events, v.1.toNat = e ∧ v.2 = event

theorem mem_matching {i : ℕ} : i ∈ matching sha256 c events h ↔
    ∃ v ∈ events, h ∈ keywordsOf sha256 c v.2.2 ∧ v.1.toNat = i := by
  simp [matching, and_assoc]

theorem nodup_matching (hnew : (events.map (·.1)).Nodup) : (matching sha256 c events h).Nodup := by
  have hsub : ((events.filter fun v => h ∈ keywordsOf sha256 c v.2.2).map (·.1)).Sublist
      (events.map (·.1)) :=
    List.filter_sublist.map _
  have hmap := (hnew.sublist hsub).map (f := UInt32.toNat) fun _ _ => UInt32.toNat_inj.1
  rwa [List.map_map] at hmap

/-- An event that is taken out and entered again is the last of its lists. -/
theorem Lists.reenter {x : TwoWay D ℕ} {v : Logged} (hx : Lists sha256 c events x) (hv : v ∈ events)
    (hnew : (events.map (·.1)).Nodup) (hf : Fits sha256 c events) :
    Lists sha256 c events
      ((x.remove v.1.toNat).enter v.1.toNat (keywordsOf sha256 c v.2.2) c.bucketMaxEntries) := by
  have hnodup : (keywordsOf sha256 c v.2.2).Nodup := extractKeywords_nodup _
  refine ⟨⟨fun w hw => ?_, fun i hi => ?_⟩, fun h => ?_⟩
  · by_cases he : w.1.toNat = v.1.toNat
    · obtain rfl : w = v := List.inj_on_of_nodup_map hnew hw hv (UInt32.toNat_inj.1 he)
      rw [TwoWay.keys_enter_self]
    · rw [TwoWay.keys_enter_of_ne he, TwoWay.keys_remove_of_ne he, hx.kept.own w hw]
  · have hne := Ne.symm (hi v hv)
    rw [TwoWay.keys_enter_of_ne hne, TwoWay.keys_remove_of_ne hne, hx.kept.others i hi]
  · rw [TwoWay.entries_enter hnodup, TwoWay.entries_remove, hx.kept.own v hv]
    split_ifs with hh
    · have hmatching : (matching sha256 c events h).Nodup := nodup_matching hnew
      have hlisted : ((x.entries h).filter (· ≠ v.1.toNat) ++ [v.1.toNat]).Perm
          (matching sha256 c events h) := by
        have hown := (hx.listed h).nodup_iff.2 hmatching
        refine (List.perm_ext_iff_of_nodup ?_ hmatching).2 fun i => ?_
        · rw [List.nodup_append]
          refine ⟨hown.filter _, List.nodup_singleton _, ?_⟩
          rintro a ha b hb rfl
          rw [List.mem_singleton.1 hb] at ha
          simp at ha
        · rw [← (hx.listed h).mem_iff, List.mem_append, List.mem_filter, List.mem_singleton]
          by_cases hi : i = v.1.toNat
          · subst hi
            simpa using (hx.listed h).mem_iff.2 (mem_matching.2 ⟨v, hv, hh, rfl⟩)
          · simp [hi]
      rw [TwoWay.rtake_eq_self (hlisted.length_eq.trans_le (hf h))]
      exact hlisted
    · exact hx.listed h

theorem Lists.reentering {x : TwoWay D ℕ} {s₀ : State D} {f : ℕ → Option (Symbol × Bytes)}
    (hx : Lists sha256 (configOf s₀) events x) (hset : SameSettings s₀ s)
    (hen : ∀ v ∈ events, enabledFor s₀ v.2.1 = true) (hnew : (events.map (·.1)).Nodup)
    (hf : Fits sha256 (configOf s₀) events) (hknows : Knows events f)
    (es : List ℕ) :
    Lists sha256 (configOf s₀) events (x.applyAll (es.flatMap (InvertedIndex.reentering sha256 s f))) := by
  induction es generalizing x with
  | nil => exact hx
  | cons e es ih =>
    rw [List.flatMap_cons, TwoWay.applyAll, List.foldl_append]
    refine ih ?_
    rw [InvertedIndex.reentering]
    rcases he : f e with _ | event
    · exact hx
    · obtain ⟨v, hv, rfl, rfl⟩ := hknows e event he
      have hen' : enabledFor s v.2.1 = true := by
        rw [hset.enabledFor_eq]
        exact hen v hv
      rw [List.foldl_cons]
      have hgoal : (x.remove v.1.toNat).applyAll (actions sha256 s v.op) = _ :=
        v.applyAll_actions hen' TwoWay.keys_remove_self
      rw [hset.configOf_eq] at hgoal
      show Lists sha256 (configOf s₀) events ((x.remove v.1.toNat).applyAll (actions sha256 s v.op))
      rw [hgoal]
      exact hx.reenter hv hnew hf

/-- **A run of `reindex_events`** over the events keeps what is listed. -/
theorem run_reindexEvents {s₀ : State D} (hrun : Run (Steps (exec sha256)) s tr s')
    (hops : ∀ p ∈ tr, ∃ a b f, p.2.2 = .reindexEvents a b f ∧ Knows events f)
    (hnew : (events.map (·.1)).Nodup) (hen : ∀ v ∈ events, enabledFor s₀ v.2.1 = true)
    (hf : Fits sha256 (configOf s₀) events) (hs : IndexOf sha256 s₀ events s) :
    IndexOf sha256 s₀ events s' := by
  refine hrun.invariant (C := fun _ call => ∃ a b f, call.2 = .reindexEvents a b f ∧ Knows events f)
    (I := IndexOf sha256 s₀ events) hs ?_ hops
  rintro s₁ ⟨env, op⟩ s₂ ⟨a, b, f, hop, hknows⟩ ⟨r, hr⟩ hin
  obtain rfl : op = .reindexEvents a b f := hop
  obtain ⟨hview, hp⟩ := view_step hr hin.packed
  have hw : Writes (layout D) indexKeys (exec sha256 (.reindexEvents a b f)) :=
    (inferInstance : Writes (layout D) indexKeys
      (do return Ret.nat (← reindexEvents sha256 a.toNat b.toNat f)))
  have hset := sameSettings_of_frame (hw.of_run hr)
  refine ⟨hin.settings.trans hset, hp, ?_⟩
  rw [hview]
  exact hin.lists.reentering hin.settings hen hnew hf hknows (batchOf a.toNat b.toNat)

/-! ## Words -/

/-- The words whose hashes `extract_keywords` returns. -/
def keywordsIn (c : IndexConfig) (metadata : Bytes) : List Bytes :=
  (((wordsIn metadata).map cut).filter (accepted c.minKeywordLen c.maxKeywordLen)).eraseDups.take
    c.maxKeywordsPerEvent

theorem eraseDups_map {α β : Type} [BEq α] [LawfulBEq α] [BEq β] [LawfulBEq β] {f : α → β}
    (hf : Function.Injective f) (l : List α) : (l.map f).eraseDups = l.eraseDups.map f := by
  induction l using List.reverseRecOn with
  | nil => rfl
  | append_singleton l a ih =>
    rw [List.map_append, List.map_singleton, eraseDups_concat, eraseDups_concat, ih]
    by_cases ha : a ∈ l
    · rw [if_pos ha, if_pos (List.mem_map_of_mem ha)]
    · rw [if_neg ha, if_neg fun hmem => ha ((List.mem_map_of_injective hf).1 hmem), List.map_append,
        List.map_singleton]

theorem keywordsOf_eq (hinj : Function.Injective sha256) (metadata : Bytes) :
    keywordsOf sha256 c metadata = (keywordsIn c metadata).map sha256 := by
  rw [keywordsOf, extractKeywords_eq, keywordsIn, hashes, List.map_take, ← eraseDups_map hinj]
  rfl

/-! ## Search -/

/-- The result for an event. -/
def resultsOf (sha256 : Bytes → D) (c : IndexConfig) (events : List Logged) (keyword : Bytes) :
    List (KeywordSearchResult D) :=
  let h := sha256 (keyword.map toLower)
  (events.filter fun v => h ∈ keywordsOf sha256 c v.2.2).map fun v => ⟨v.1.toNat, h⟩

/-- **Search is sound and complete.** -/
theorem search_complete {s₀ : State D} (hrun : Run (Steps (exec sha256)) s₀ tr s) (hblank : Blank s₀)
    (hops : tr.map (fun p => p.2.2) = events.map Logged.op) (hnew : (events.map (·.1)).Nodup)
    (hen : ∀ v ∈ events, enabledFor s₀ v.2.1 = true) (hf : Fits sha256 (configOf s₀) events)
    (hmax : (configOf s₀).bucketMaxEntries < 2 ^ 32) (hk : keyword ≠ []) (hsize : 0 < size) :
    let results := resultsOf sha256 (configOf s₀) events keyword
    -- in the order of indexing, once each
    Pages sha256 s keyword size results ∧ results.Nodup ∧
    (∀ env, (keywordEntryCount sha256 keyword).run env s = .ok (results.length, s)) ∧
    -- the events are those that have the keyword
    (Function.Injective sha256 → ∀ i, i ∈ results.map (·.eventIndex) ↔
      ∃ v ∈ events, keyword.map toLower ∈ keywordsIn (configOf s₀) v.2.2 ∧ v.1.toNat = i) ∧
    -- reindexing keeps them
    ∀ tr' s', Run (Steps (exec sha256)) s tr' s' →
      (∀ p ∈ tr', ∃ a b f, p.2.2 = .reindexEvents a b f ∧ Knows events f) →
      ∃ results' : List (KeywordSearchResult D), results'.Perm results ∧
        Pages sha256 s' keyword size results' ∧
        ∀ env, (keywordEntryCount sha256 keyword).run env s' = .ok (results'.length, s') := by
  have hresults : resultsOf sha256 (configOf s₀) events keyword =
      (matching sha256 (configOf s₀) events (sha256 (keyword.map toLower))).map
        fun e => ⟨e, sha256 (keyword.map toLower)⟩ := by
    rw [resultsOf, matching, List.map_map]
    rfl
  have hlen : ∀ {s' : State D}, IndexOf sha256 s₀ events s' →
      (found sha256 s' keyword).length < 2 ^ 32 := fun hin => by
    rw [found, List.length_map]
    exact (((hin.lists.listed _).length_eq.trans_le (hf _)).trans_lt hmax)
  obtain ⟨hin, hlisted⟩ := run_indexEvents hrun hblank hops hnew hen hf
  have hfound : found sha256 s keyword = resultsOf sha256 (configOf s₀) events keyword := by
    rw [hresults, ← hlisted]
    rfl
  refine ⟨?_, ?_, fun env => ?_, fun hinj i => ?_, fun tr' s' hrun' hops' => ?_⟩
  · rw [← hfound]
    exact pages_found hk hsize (hlen hin)
  · rw [hresults]
    exact (nodup_matching hnew).map fun a b hab => congrArg KeywordSearchResult.eventIndex hab
  · rw [← hfound]
    exact keywordEntryCount_run hk hin.packed
  · rw [hresults, List.map_map]
    show i ∈ (matching sha256 (configOf s₀) events (sha256 (keyword.map toLower))).map id ↔ _
    rw [List.map_id, mem_matching]
    refine exists_congr fun v => and_congr_right fun _ => and_congr_left fun _ => ?_
    rw [keywordsOf_eq hinj, List.mem_map_of_injective hinj]
  · have hin' := run_reindexEvents hrun' hops' hnew hen hf hin
    refine ⟨found sha256 s' keyword, ?_, pages_found hk hsize (hlen hin'), fun env =>
      keywordEntryCount_run hk hin'.packed⟩
    rw [hresults]
    exact (hin'.lists.listed _).map _

/-- A script that indexes events. -/
theorem ops_traceOf {s₀ : State D}
    (hs : play (exec sha256) s₀ (events.map fun v => (env, v.op)) = some s) :
    (traceOf (exec sha256) s₀ (events.map fun v => (env, v.op))).map (fun p => p.2.2) =
      events.map Logged.op := by
  have hops := congrArg (List.map Prod.snd) (map_snd_traceOf hs)
  simpa [List.map_map, Function.comp_def] using hops

/-- Two events with the word `wire`. -/
def wireEvents : List Logged := [(7, "a", ascii "wire payment"), (3, "a", ascii "Wire; fee")]

/-- Reindexing the first. -/
def wireAgain : Env × Op :=
  (openEnv 2, .reindexEvents 0 10 fun e => if e = 7 then some ("a", ascii "wire payment") else none)

theorem search_complete_wireEvents : ∃ s s' results',
    Pages id s (ascii "WIRE") 1 [⟨7, ascii "wire"⟩, ⟨3, ascii "wire"⟩] ∧
    Steps (exec id) s wireAgain s' ∧
    results'.Perm [⟨7, ascii "wire"⟩, ⟨3, ascii "wire"⟩] ∧ Pages id s' (ascii "WIRE") 1 results' := by
  let s₀ : State Bytes := Ledger.empty.put .indexConfig () ⟨true, 3, 32, 20, 2⟩
  let script := wireEvents.map fun v => (openEnv 1, v.op)
  obtain ⟨s, hs⟩ : ∃ s, play (exec id) s₀ script = some s := Option.isSome_iff_exists.1 (by decide +kernel)
  have hagain : ((play (exec id) s₀ script).bind fun s => play (exec id) s [wireAgain]).isSome = true := by
    decide +kernel
  rw [hs, Option.bind_some] at hagain
  obtain ⟨s', hs'⟩ := Option.isSome_iff_exists.1 hagain
  obtain ⟨r, s₁, hr, hnil⟩ := play_cons hs'
  obtain rfl : s₁ = s' := Option.some.inj hnil
  have hfits : Fits id (configOf s₀) wireEvents := fun h => by
    rw [matching, List.length_map]
    exact List.length_filter_le ..
  obtain ⟨hpages, -, -, -, hkept⟩ := search_complete (run_of_play hs) (blank_configured _) (ops_traceOf hs)
    (by decide) (by decide +kernel) hfits (by decide) (show ascii "WIRE" ≠ [] by decide) Nat.one_pos
  have hresults : resultsOf id (configOf s₀) wireEvents (ascii "WIRE") =
      [⟨7, ascii "wire"⟩, ⟨3, ascii "wire"⟩] := by decide +kernel
  rw [hresults] at hpages hkept
  obtain ⟨results', hperm, hpages', -⟩ := hkept [(s, wireAgain)] s₁ (.snoc .init ⟨r, hr⟩) fun p hp => by
    obtain rfl := List.mem_singleton.1 hp
    refine ⟨0, 10, _, rfl, fun e event he => ?_⟩
    split_ifs at he with h7
    cases he
    exact ⟨(7, "a", ascii "wire payment"), by simp [wireEvents], h7.symm, rfl⟩
  exact ⟨s, s₁, results', hpages, ⟨r, hr⟩, hperm, hpages'⟩

/-- An event that has the empty word, where words may be empty. -/
def blankEvents : List Logged := [(0, "a", ascii " ")]

/-- It is not found by the empty keyword. -/
theorem empty_keyword_not_found : ∃ (s₀ s : State Bytes) (tr : List (State Bytes × (Env × Op))),
    Run (Steps (exec id)) s₀ tr s ∧ Blank s₀ ∧
    tr.map (fun p => p.2.2) = blankEvents.map Logged.op ∧ Fits id (configOf s₀) blankEvents ∧
    (∀ v ∈ blankEvents, enabledFor s₀ v.2.1 = true) ∧ (configOf s₀).minKeywordLen = 0 ∧
    isStopWord [] = false ∧
    resultsOf id (configOf s₀) blankEvents [] = [⟨0, []⟩] ∧ Pages id s [] 1 [] := by
  let s₀ : State Bytes := Ledger.empty.put .indexConfig () ⟨true, 0, 32, 20, 2⟩
  let script := blankEvents.map fun v => (openEnv 1, v.op)
  obtain ⟨s, hs⟩ : ∃ s, play (exec id) s₀ script = some s := Option.isSome_iff_exists.1 (by decide +kernel)
  have hfits : Fits id (configOf s₀) blankEvents := fun h => by
    rw [matching, List.length_map]
    exact (List.length_filter_le ..).trans (by decide)
  have hpages : Pages id s [] 1 [] :=
    ⟨[], rfl, by decide, fun page p hp => absurd hp (by simp), fun env => rfl⟩
  exact ⟨s₀, s, _, run_of_play hs, blank_configured _, ops_traceOf hs, hfits, by decide +kernel, rfl,
    by decide +kernel, by decide +kernel, hpages⟩

end InvertedIndex
