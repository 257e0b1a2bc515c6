/-
  AuditLedger — the events, page by page.

  Six queries return a page of at most 100 events.  One pages the log, two select
  from it, and three read the indices, which low-cost mode does not extend and
  compaction of a type removes.

  * `bytesContains_iff`: the substring search;
  * `readPage_run`: the loop all six end with returns a window of its list;
  * `pages_partition`: in every reachable state the pages of a query are the events it
    is about, for an index those that were entered in it;
  * `category_listed`: the headers of a category, from an index on.
-/
import AuditTransparency.Ledger.Compliance
import AuditTransparency.Ledger.Headers
import AuditTransparency.Ledger.Limits
import AuditTransparency.Soroban.Pages
import Mathlib.Data.List.Infix

namespace AuditLedger

open Soroban
open Soroban.Call hiding hasPers publish

variable {D : Type} [DecidableEq D] {H : Host D} {env : Env} {s s' : State D} {L : List (Entry D)}
  {R : List Record} {r : Ret D} {op : Op D}

/-! ## Functions -/

/-- A page: none of no events, and none of more than 100. -/
def withLimit (limit : ℕ) (page : Fn D (List (Event D))) : Fn D (List (Event D)) :=
  if limit = 0 then return []
  else do
    rejectIf (limit > 100) .invalidPaginationParams
    page

/-- The events from `offset` up to `limit` more, of `total`. -/
def readPage (total : ℕ) (fetch : ℕ → Fn D (Event D)) (offset limit : ℕ) : Fn D (List (Event D)) :=
  if offset ≥ total then return []
  else
    let stop := min (saturatingAdd offset limit) total
    (List.range' offset (stop - offset)).foldlM (fun results i => do return results ++ [← fetch i]) []

/-- `list_events` -/
def listEvents (offset limit : ℕ) : Fn D (List (Event D)) :=
  withLimit limit do
    let total ← totalEvents
    readPage total getEventByOrder offset limit

/-- `list_events_by_type` -/
def listEventsByType (eventType : Symbol) (offset limit : ℕ) : Fn D (List (Event D)) :=
  withLimit limit do
    let total ← eventTypeCount eventType
    readPage total (getEventByType eventType) offset limit

/-- `get_events_by_type` -/
def getEventsByType (eventType : Symbol) (start limit : ℕ) : Fn D (List (Event D)) := do
  requireInitialized
  withLimit limit do
    let total ← eventTypeCount eventType
    if total = 0 then return [] else readPage total (getEventByType eventType) start limit

/-- `get_events_by_submitter` -/
def getEventsBySubmitter (submitter : Address) (start limit : ℕ) : Fn D (List (Event D)) := do
  requireInitialized
  withLimit limit do
    let total ← submitterCount submitter
    if total = 0 then return [] else readPage total (getEventBySubmitter submitter) start limit

/-- The loop of `get_events_by_time_range` and `search_events` over the log. -/
def selectEvents (p : Event D → Bool) : Fn D (List (Event D)) := do
  let total ← totalEvents
  (List.range total).foldlM (fun found i => do
    let evt ← getEventByOrder i
    return if p evt then found ++ [evt] else found) []

/-- `get_events_by_time_range` -/
def getEventsByTimeRange (startTime endTime offset limit : ℕ) : Fn D (List (Event D)) :=
  withLimit limit <|
    if endTime < startTime then return []
    else do
      let found ← selectEvents fun evt => evt.timestamp ≥ startTime ∧ evt.timestamp ≤ endTime
      readPage found.length (fun i => unwrap found[i]?) offset limit

/-- `bytes_contains`.  In its loops both bytes that are compared are there. -/
def bytesContains (haystack needle : Bytes) : Bool :=
  if needle.length = 0 then true
  else if needle.length > haystack.length then false
  else
    let lastStart := haystack.length - needle.length
    (List.range (lastStart + 1)).any fun start =>
      (List.range needle.length).all fun i => haystack[start + i]? = needle[i]?

/-- `search_events` -/
def searchEvents (query : Bytes) (offset limit : ℕ) : Fn D (List (Event D)) :=
  withLimit limit do
    let found ← selectEvents fun evt => bytesContains evt.metadata query
    readPage found.length (fun i => unwrap found[i]?) offset limit

/-! ## Substrings -/

/-- **The search finds the contiguous substrings.** -/
theorem bytesContains_iff {haystack needle : Bytes} :
    bytesContains haystack needle = true ↔ needle <:+: haystack := by
  rw [bytesContains, List.infix_iff_getElem?]
  split_ifs with hnil hlong
  · refine iff_of_true rfl ⟨0, by omega, fun i hi => absurd hi (by omega)⟩
  · refine iff_of_false (by decide) ?_
    rintro ⟨k, hk, -⟩
    omega
  · simp only [List.any_eq_true, List.all_eq_true, List.mem_range, decide_eq_true_eq]
    constructor
    · rintro ⟨k, hk, hmatch⟩
      refine ⟨k, by omega, fun i hi => ?_⟩
      rw [Nat.add_comm, hmatch i hi, List.getElem?_eq_getElem hi]
    · rintro ⟨k, hk, hmatch⟩
      refine ⟨k, by omega, fun i hi => ?_⟩
      rw [Nat.add_comm, hmatch i hi, List.getElem?_eq_getElem hi]

/-! ## Pages -/

/-- The pages of `f` list `l`: every page of 1 to 100 events is returned, those that
    follow one another from the first to the last that is not empty make up `l`, and
    the later ones are empty. -/
structure Paged (f : ℕ → ℕ → Fn D (List (Event D))) (s : State D) (l : List (Event D)) : Prop where
  accepted : ∀ env offset limit, offset < 2 ^ 32 → 1 ≤ limit → limit ≤ 100 →
    ∃ page, (f offset limit).run env s = .ok (page, s)
  listed : ∀ env limit, 1 ≤ limit → limit ≤ 100 → ∃ pages : List (List (Event D)), pages.flatten = l ∧
    (∀ (k : ℕ) page, pages[k]? = some page → page ≠ [] ∧ k * limit < 2 ^ 32 ∧
      (f (k * limit) limit).run env s = .ok (page, s)) ∧
    ∀ k, pages.length ≤ k → k * limit < 2 ^ 32 → (f (k * limit) limit).run env s = .ok ([], s)

/-- A query that returns the windows of a list pages it. -/
theorem paged_of_window {f : ℕ → ℕ → Fn D (List (Event D))} {l : List (Event D)} (hl : l.length < 2 ^ 32)
    (hf : ∀ env offset limit, 1 ≤ limit → limit ≤ 100 →
      (f offset limit).run env s = .ok ((l.drop offset).take limit, s)) : Paged f s l where
  accepted env offset limit _ h1 h100 := ⟨_, hf env offset limit h1 h100⟩
  listed env limit h1 h100 := by
    obtain ⟨pages, hpages, hpage, hafter⟩ := exists_windows l h1
    refine ⟨pages, hpages, fun k page hk => ?_, fun k hk _ => ?_⟩
    · obtain ⟨rfl, hlt⟩ := hpage k page hk
      exact ⟨window_ne_nil h1 hlt, by omega, hf env _ _ h1 h100⟩
    · rw [hf env _ _ h1 h100, List.drop_of_length_le (hafter k hk), List.take_nil]

theorem withLimit_run {limit : ℕ} (h1 : 1 ≤ limit) (h100 : limit ≤ 100) (page : Fn D (List (Event D))) :
    (withLimit limit page).run env s = page.run env s := by
  have hpass : (rejectIf (limit > 100) .invalidPaginationParams : Fn D Unit).run env s = .ok ((), s) := by
    rw [run_rejectIf, if_neg (by omega)]
  rw [withLimit, if_neg (by omega), run_bind_ok _ _ hpass]

/-- **The loop all queries end with** returns a window. -/
theorem readPage_run {l : List (Event D)} {fetch : ℕ → Fn D (Event D)} (hl : l.length < 2 ^ 32)
    (hf : ∀ (i : ℕ) e, l[i]? = some e → (fetch i).run env s = .ok (e, s)) (offset limit : ℕ) :
    (readPage l.length fetch offset limit).run env s = .ok ((l.drop offset).take limit, s) := by
  rw [readPage]
  split_ifs with hpast
  · rw [run_pure, List.drop_of_length_le hpast, List.take_nil]
  · have hstop : min (saturatingAdd offset limit) l.length = min (offset + limit) l.length := by
      rw [saturatingAdd]; omega
    have htake : (l.drop offset).take (min (offset + limit) l.length - offset) =
        (l.drop offset).take limit := by
      rw [List.take_eq_take_iff, List.length_drop]; omega
    rw [hstop, run_collect hf offset _ (by omega), htake]

/-! ## The log -/

/-- Every event, in order. -/
def eventsOf (s : State D) : List (Event D) := (List.range (runtimeTotal s)).filterMap (eventAt s)

theorem filterMap_range_getElem? {α : Type} (l : List α) :
    (List.range l.length).filterMap (fun i => l[i]?) = l := by
  induction l using List.reverseRecOn with
  | nil => rfl
  | append_singleton l a ih =>
    have hold : (List.range l.length).filterMap (fun i => (l ++ [a])[i]?) = l := by
      refine (List.filterMap_congr fun i hi => ?_).trans ih
      rw [List.getElem?_append_left (List.mem_range.1 hi)]
    rw [List.length_append, List.length_singleton, List.range_succ, List.filterMap_append, hold]
    simp

theorem LogInv.eventsOf_eq (h : LogInv H s L) : eventsOf s = L.map Prod.snd := by
  have hat : eventAt s = fun i => (L.map Prod.snd)[i]? :=
    funext fun i => by rw [h.holds.eventAt_eq, List.getElem?_map]
  have hlen : runtimeTotal s = (L.map Prod.snd).length := by rw [h.runtimeTotal_eq, List.length_map]
  rw [eventsOf, hat, hlen, filterMap_range_getElem?]

theorem LogInv.length_eventsOf (h : LogInv H s L) : (eventsOf s).length = L.length := by
  rw [h.eventsOf_eq, List.length_map]

theorem LogInv.lt_of_filter (h : LogInv H s L) (p : Event D → Bool) :
    ((eventsOf s).filter p).length < 2 ^ 32 := by
  have := List.length_filter_le p (eventsOf s)
  have := h.length_eventsOf
  have := h.chain.length_lt
  omega

theorem LogInv.fetch_eventsOf (h : LogInv H s L) (env : Env) (i : ℕ) (e : Event D)
    (he : (eventsOf s)[i]? = some e) : (getEventByOrder i : Fn D (Event D)).run env s = .ok (e, s) := by
  rw [h.eventsOf_eq, List.getElem?_map] at he
  obtain ⟨p, hp, rfl⟩ := Option.map_eq_some_iff.1 he
  exact h.getEventByOrder_run hp

/-- **`list_events`** pages the log. -/
theorem LogInv.listEvents_paged (h : LogInv H s L) : Paged listEvents s (eventsOf s) := by
  have hlen := h.length_eventsOf
  have hlt := h.chain.length_lt
  refine paged_of_window (by omega) fun env offset limit h1 h100 => ?_
  rw [listEvents, withLimit_run h1 h100, run_bind_ok _ _ h.totalEvents_run, ← hlen,
    readPage_run (by omega) (h.fetch_eventsOf env)]

theorem LogInv.selectEvents_run (h : LogInv H s L) (p : Event D → Bool) :
    (selectEvents p).run env s = .ok ((eventsOf s).filter p, s) := by
  have hlen := h.length_eventsOf
  rw [selectEvents, run_bind_ok _ _ h.totalEvents_run, List.range_eq_range',
    run_select (h.fetch_eventsOf env) p 0 L.length [] (by omega), ← hlen, List.drop_zero, List.take_length,
    List.nil_append]

/-- The page of a list that was collected before. -/
theorem readPage_collected {l : List (Event D)} (hl : l.length < 2 ^ 32) (offset limit : ℕ) :
    (readPage l.length (fun i => unwrap l[i]?) offset limit).run env s =
      .ok ((l.drop offset).take limit, s) :=
  readPage_run hl (fun i e he => by rw [he, run_unwrap_some]) offset limit

/-- **`get_events_by_time_range`** pages the events of the range. -/
theorem LogInv.getEventsByTimeRange_paged (h : LogInv H s L) (startTime endTime : ℕ) :
    Paged (getEventsByTimeRange startTime endTime) s
      ((eventsOf s).filter fun e => startTime ≤ e.timestamp ∧ e.timestamp ≤ endTime) := by
  refine paged_of_window (h.lt_of_filter _) fun env offset limit h1 h100 => ?_
  rw [getEventsByTimeRange, withLimit_run h1 h100]
  split_ifs with hempty
  · have hnone : (eventsOf s).filter (fun e => startTime ≤ e.timestamp ∧ e.timestamp ≤ endTime) = [] := by
      refine List.filter_eq_nil_iff.2 fun e _ => ?_
      rw [decide_eq_true_eq]
      omega
    rw [run_pure, hnone, List.drop_nil, List.take_nil]
  · rw [run_bind_ok _ _ (h.selectEvents_run _), readPage_collected (h.lt_of_filter _)]

/-- **`search_events`** pages the events whose metadata contains the query. -/
theorem LogInv.searchEvents_paged (h : LogInv H s L) (query : Bytes) :
    Paged (searchEvents query) s ((eventsOf s).filter fun e => query <:+: e.metadata) := by
  have hfilter : (fun e : Event D => bytesContains e.metadata query) =
      fun e => decide (query <:+: e.metadata) := funext fun e => by
    rw [Bool.eq_iff_iff, decide_eq_true_eq]; exact bytesContains_iff
  refine paged_of_window (h.lt_of_filter _) fun env offset limit h1 h100 => ?_
  rw [searchEvents, withLimit_run h1 h100, run_bind_ok _ _ (h.selectEvents_run _), hfilter,
    readPage_collected (h.lt_of_filter _)]

/-! ## The indices -/

/-- The events at the positions of an index. -/
theorem getElem?_filterMap_of_isSome {α β : Type} {f : α → Option β} {l : List α}
    (hf : ∀ a ∈ l, (f a).isSome) (k : ℕ) : (l.filterMap f)[k]? = l[k]?.bind f := by
  induction l generalizing k with
  | nil => rfl
  | cons a l ih =>
    obtain ⟨b, hb⟩ := Option.isSome_iff_exists.1 (hf a (by simp))
    rw [List.filterMap_cons_some hb]
    cases k with
    | zero => simp [hb]
    | succ k => simpa using ih (fun a ha => hf a (by simp [ha])) k

/-- **The pages of an index** are the events at its positions. -/
theorem LogInv.readPage_index (h : LogInv H s L) {is : List ℕ} {query : ℕ → Fn D (Event D)}
    (hlt : ∀ i ∈ is, i < L.length) (hn : is.length ≤ L.length)
    (hquery : ∀ (k i : ℕ) p, is[k]? = some i → L[i]? = some p → (query k).run env s = .ok (p.2, s))
    (offset limit : ℕ) :
    (readPage is.length query offset limit).run env s =
      .ok (((is.filterMap (eventAt s)).drop offset).take limit, s) := by
  have hat : ∀ i ∈ is, (eventAt s i).isSome := fun i hi => by
    rw [h.holds.eventAt_eq, List.getElem?_eq_getElem (hlt i hi)]; rfl
  have hlen : (is.filterMap (eventAt s)).length = is.length := List.filterMap_length_eq_length.2 hat
  have := h.chain.length_lt
  rw [← hlen]
  refine readPage_run (by omega) (fun k e he => ?_) offset limit
  rw [getElem?_filterMap_of_isSome hat] at he
  obtain ⟨i, hi, hei⟩ := Option.bind_eq_some_iff.1 he
  rw [h.holds.eventAt_eq] at hei
  obtain ⟨p, hp, rfl⟩ := Option.map_eq_some_iff.1 hei
  exact hquery k i p hi hp

/-! ## What a run enters in an index -/

/-- The positions of the events with `q` the step enters in an index. -/
def Action.enters (H : Host D) (s : State D) (q : Record → Bool) : Action D → List ℕ
  | .call env op => if lowCost s then [] else (op.adds H env s).findIdxs q (runtimeTotal s)
  | _ => []

/-- The step logs an event with `q` and leaves it out of the index: the mode is low-cost. -/
def Action.skips (H : Host D) (s : State D) (q : Record → Bool) : Action D → Bool
  | .call env op => lowCost s ∧ (op.adds H env s).any q
  | _ => false

/-- The step removes the index of the type. -/
def Action.compacts (s : State D) (t : Symbol) : Action D → Bool
  | .call _ (.compactStorage _ l) =>
    t ∈ l ∧ s.inst .eventCapConfig t = none ∧ packedType s t ≠ []
  | _ => false

/-- The positions in an index after a run: what the steps enter, since the last that
    removes it. -/
def entries (H : Host D) (q : Record → Bool) (removes : State D → Action D → Bool)
    (tr : List (State D × Action D)) : List ℕ :=
  tr.foldl (fun is p => (if removes p.1 p.2 then [] else is) ++ p.2.enters H p.1 q) []

/-- The positions in the index of a type. -/
def typeEntries (H : Host D) (t : Symbol) (tr : List (State D × Action D)) : List ℕ :=
  entries H (·.eventType = t) (fun s a => a.compacts s t) tr

/-- The positions in the index of a submitter. -/
def submitterEntries (H : Host D) (a : Address) (tr : List (State D × Action D)) : List ℕ :=
  entries H (·.submitter = a) (fun _ _ => false) tr

section
variable {tr : List (State D × Action D)} {a : Action D} {q : Record → Bool}
  {removes : State D → Action D → Bool}

theorem entries_snoc : entries H q removes (tr ++ [(s, a)]) =
    (if removes s a then [] else entries H q removes tr) ++ a.enters H s q := by
  rw [entries, entries, List.foldl_append]; rfl

theorem typeEntries_snoc (t : Symbol) : typeEntries H t (tr ++ [(s, a)]) =
    (if a.compacts s t then [] else typeEntries H t tr) ++ a.enters H s (·.eventType = t) := entries_snoc

theorem submitterEntries_snoc (b : Address) : submitterEntries H b (tr ++ [(s, a)]) =
    submitterEntries H b tr ++ a.enters H s (·.submitter = b) := entries_snoc

/-- A step that skips nothing enters all it logs. -/
theorem findIdxs_enters (hlog : HasLog H s R) (hq : ∀ r, q r.core = q r) (hskip : a.skips H s q = false) :
    R.findIdxs q ++ a.enters H s q = (a.logAfter H s R).findIdxs q := by
  cases a with
  | call env op =>
    rw [Action.logAfter, List.findIdxs_append, findIdxs_amendAll R _ hq, length_amendAll, Nat.zero_add,
      Action.enters, hlog.runtimeTotal_eq]
    congr 1
    split_ifs with hlow
    · have hnone : (op.adds H env s).any q = false := by simpa [Action.skips, hlow] using hskip
      refine (List.eq_nil_of_length_eq_zero ?_).symm
      rw [List.length_findIdxs, List.countP_eq_zero]
      exact fun r hr => List.any_eq_false.1 hnone r hr
    · rfl
  | expireTemporary f k => simp [Action.enters, Action.logAfter]
  | expirePersistent f k => simp [Action.enters, Action.logAfter]

/-- What a step enters are positions of what it logs. -/
theorem enters_sublist (hlog : HasLog H s R) (hq : ∀ r, q r.core = q r) :
    (R.findIdxs q ++ a.enters H s q).Sublist ((a.logAfter H s R).findIdxs q) := by
  rcases hskip : a.skips H s q
  · rw [findIdxs_enters hlog hq hskip]
  · cases a with
    | call env op =>
      have hlow : lowCost s = true := by
        rw [Action.skips, decide_eq_true_eq] at hskip; exact hskip.1
      rw [Action.enters, if_pos hlow, List.append_nil, Action.logAfter, List.findIdxs_append,
        findIdxs_amendAll R _ hq]
      exact List.sublist_append_left ..
    | expireTemporary f k => cases hskip
    | expirePersistent f k => cases hskip

/-- The positions in an index are positions of events with `q`, and all of them when no
    step removes the index or skips one. -/
structure Indexes (H : Host D) (tr : List (State D × Action D)) (R : List Record) (q : Record → Bool)
    (removes : State D → Action D → Bool) : Prop where
  sublist : (entries H q removes tr).Sublist (R.findIdxs q)
  complete : (∀ p ∈ tr, removes p.1 p.2 = false ∧ p.2.skips H p.1 q = false) →
    entries H q removes tr = R.findIdxs q

theorem Indexes.snoc (h : Indexes H tr R q removes) (hlog : HasLog H s R) (hq : ∀ r, q r.core = q r) :
    Indexes H (tr ++ [(s, a)]) (a.logAfter H s R) q removes where
  sublist := by
    rw [entries_snoc]
    refine (List.Sublist.append ?_ (List.Sublist.refl _)).trans (enters_sublist hlog hq)
    split_ifs
    · exact List.nil_sublist _
    · exact h.sublist
  complete hall := by
    obtain ⟨hkept, hskip⟩ := hall (s, a) (by simp)
    rw [entries_snoc, hkept, if_neg Bool.false_ne_true,
      h.complete fun p hp => hall p (List.mem_append_left _ hp)]
    exact findIdxs_enters hlog hq hskip

end

/-- The indices hold their entries. -/
structure PackedEntries (H : Host D) (tr : List (State D × Action D)) (s : State D) : Prop where
  typeIndex : ∀ t, packedType s t = (typeEntries H t tr).flatMap u32ToBytes
  submitterIndex : ∀ a, packedSubmitter s a = (submitterEntries H a tr).flatMap u32ToBytes
  submitterTotal : ∀ a, submitterTotal s a = (submitterEntries H a tr).length
  typeBound : ∀ t, (packedType s t).length < 2 ^ 32
  submitterBound : ∀ a, (packedSubmitter s a).length < 2 ^ 32

/-- **Compaction removes the entries** of the types it removes the index of. -/
theorem PackedEntries.compact {tr : List (State D × Action D)} (h : PackedEntries H tr s) {b : Address}
    {l : List Symbol} (hs : Step H env (.compactStorage b l) s r s') :
    PackedEntries H (tr ++ [(s, .call env (.compactStorage b l))]) s' := by
  have hf := (exec_writes H (.compactStorage b l)).of_run hs
  have hnone : ∀ q, Action.enters H s q (.call env (.compactStorage b l)) = [] := fun q => by
    rw [Action.enters, adds_of_not_logging rfl rfl]; simp
  have hpacked : ∀ t, packedType s' t =
      if Action.compacts s t (.call env (.compactStorage b l)) then [] else packedType s t := fun t => by
    rw [step_compact hs, Action.compacts]
    by_cases hnil : packedType s t = []
    · simp [hnil]
    · simp [hnil]
  have hsubmitter : ∀ a, packedSubmitter s' a = packedSubmitter s a := fun a => by
    rw [packedSubmitter, packedSubmitter, hf.inst (notMem_of_eval rfl)]
  refine ⟨fun t => ?_, fun a => ?_, fun a => ?_, fun t => ?_, fun a => ?_⟩
  · rw [hpacked, typeEntries_snoc, hnone, List.append_nil, h.typeIndex]
    split_ifs
    · rfl
    · rfl
  · rw [hsubmitter, submitterEntries_snoc, hnone, List.append_nil, h.submitterIndex]
  · rw [submitterEntries_snoc, hnone, List.append_nil, ← h.submitterTotal, AuditLedger.submitterTotal,
      hf.inst (notMem_of_eval rfl), AuditLedger.submitterTotal]
  · rw [hpacked]
    split_ifs
    · decide
    · exact h.typeBound t
  · rw [hsubmitter]; exact h.submitterBound a

/-- **The other calls enter what they log.** -/
theorem PackedEntries.entered {tr : List (State D × Action D)} (h : PackedEntries H tr s)
    (hlog : HasLog H s R) (hop : ∀ b l, op ≠ .compactStorage b l)
    (he : Entered s s' R.length (op.adds H env s)) : PackedEntries H (tr ++ [(s, .call env op)]) s' := by
  have henter : ∀ q, (Action.enters H s q (.call env op)).flatMap u32ToBytes =
      if lowCost s then [] else ((op.adds H env s).findIdxs q R.length).flatMap u32ToBytes := fun q => by
    rw [Action.enters, hlog.runtimeTotal_eq]
    split_ifs
    · rfl
    · rfl
  have hkept : ∀ t, Action.compacts s t (.call env op) = false := fun t => by
    unfold Action.compacts
    split
    · next heq => cases heq; exact absurd rfl (hop _ _)
    · rfl
  refine ⟨fun t => ?_, fun a => ?_, fun a => ?_, fun t => he.typeBound t (h.typeBound t),
    fun a => he.submitterBound a (h.submitterBound a)⟩
  · rw [he.typeIndex, h.typeIndex, typeEntries_snoc, hkept, if_neg Bool.false_ne_true,
      List.flatMap_append, henter]
  · rw [he.submitterIndex, h.submitterIndex, submitterEntries_snoc, List.flatMap_append, henter]
  · rw [he.submitterTotal, h.submitterTotal, submitterEntries_snoc, List.length_append, Action.enters]
    split_ifs
    · rfl
    · rw [List.length_findIdxs]

/-- An expiry does not concern the indices. -/
theorem PackedEntries.idle {tr : List (State D × Action D)} (h : PackedEntries H tr s) {a : Action D}
    (hs : ∀ f, s'.inst f = s.inst f) (henter : ∀ q, a.enters H s q = [])
    (hkept : ∀ t, a.compacts s t = false) : PackedEntries H (tr ++ [(s, a)]) s' := by
  refine ⟨fun t => ?_, fun b => ?_, fun b => ?_, fun t => ?_, fun b => ?_⟩
  · rw [typeEntries_snoc, henter, hkept, if_neg Bool.false_ne_true, List.append_nil, packedType, hs]
    exact h.typeIndex t
  · rw [submitterEntries_snoc, henter, List.append_nil, packedSubmitter, hs]
    exact h.submitterIndex b
  · rw [submitterEntries_snoc, henter, List.append_nil, AuditLedger.submitterTotal, hs]
    exact h.submitterTotal b
  · rw [packedType, hs]; exact h.typeBound t
  · rw [packedSubmitter, hs]; exact h.submitterBound b

theorem Initialized.packedEntries {g m : ℕ} (h : Initialized s g m) : PackedEntries H [] s where
  typeIndex t := h.indexedBy.typeIndex t
  submitterIndex a := h.indexedBy.submitterIndex a
  submitterTotal a := h.indexedBy.submitterTotal a
  typeBound t := h.indexedBy.typeBound t
  submitterBound a := h.indexedBy.submitterBound a

/-- **The indices in every run**: they hold their entries, which are positions of the log. -/
theorem packed_of_history (hinj : Function.Injective H.sha256) {tr : List (State D × Action D)}
    (h : History H tr s) : PackedEntries H tr s ∧ ∃ L, LogInv H s L ∧
      ∀ q : Record → Bool, (∀ r, q r.core = q r) → ∀ removes, Indexes H tr (records L) q removes := by
  obtain ⟨s₀, h₀, hrun⟩ := h
  obtain ⟨g, m, hinit⟩ := initialized_of_init h₀
  have key : PackedEntries H tr s ∧ ∃ R, HasLog H s R ∧
      ∀ q : Record → Bool, (∀ r, q r.core = q r) → ∀ removes, Indexes H tr R q removes := by
    induction hrun with
    | init =>
      exact ⟨hinit.packedEntries, [], hinit.hasLog, fun q _ removes => ⟨List.Sublist.slnil, fun _ => rfl⟩⟩
    | @snoc tr s s' a hr hn ih =>
      obtain ⟨hpacked, R, hlog, hindexes⟩ := ih
      refine ⟨?_, _, next_hasLog hinj hlog hn, fun q hq removes => (hindexes q hq removes).snoc hlog hq⟩
      cases a with
      | call env op =>
        obtain ⟨r, hs⟩ := hn
        by_cases hop : ∃ b l, op = .compactStorage b l
        · obtain ⟨b, l, rfl⟩ := hop
          exact hpacked.compact hs
        · have hop : ∀ b l, op ≠ .compactStorage b l := fun b l e => hop ⟨b, l, e⟩
          exact hpacked.entered hlog hop (step_entered hinj hlog hs hop)
      | expireTemporary f k =>
        rw [Next] at hn
        exact hn ▸ hpacked.idle (fun _ => rfl) (fun _ => rfl) fun _ => rfl
      | expirePersistent f k =>
        rw [Next] at hn
        exact hn ▸ hpacked.idle (fun _ => rfl) (fun _ => rfl) fun _ => rfl
  obtain ⟨hpacked, R, ⟨L, hL, rfl⟩, hindexes⟩ := key
  exact ⟨hpacked, L, hL, hindexes⟩

/-! ## The partition -/

/-- The pages of `f` are the events of an index: some of those with `q`, in order, and
    all of them when no step of the run removes the index or skips one. -/
structure PagedIndex (H : Host D) (tr : List (State D × Action D)) (s : State D) (q : Record → Bool)
    (removes : State D → Action D → Bool) (f : ℕ → ℕ → Fn D (List (Event D))) : Prop where
  paged : Paged f s ((entries H q removes tr).filterMap (eventAt s))
  sublist : ((entries H q removes tr).filterMap (eventAt s)).Sublist
    ((eventsOf s).filter fun e => q e.record)
  complete : (∀ p ∈ tr, removes p.1 p.2 = false ∧ p.2.skips H p.1 q = false) →
    (entries H q removes tr).filterMap (eventAt s) = (eventsOf s).filter fun e => q e.record

/-- The events at the positions of those with `q`. -/
theorem LogInv.filterMap_findIdxs (h : LogInv H s L) (q : Record → Bool) :
    ((records L).findIdxs q).filterMap (eventAt s) = (eventsOf s).filter fun e => q e.record := by
  have hlen : runtimeTotal s = (records L).length := by rw [h.runtimeTotal_eq, records, List.length_map]
  rw [← HasLog.positions ⟨L, h, rfl⟩, AuditLedger.positions, eventsOf, hlen, List.filterMap_filter,
    List.filter_filterMap]
  refine List.filterMap_congr fun i _ => ?_
  rcases he : eventAt s i with _ | e
  · simp
  · by_cases hq : q e.record = true
    · simp [Option.filter, hq]
    · simp [Option.filter, hq]

theorem LogInv.pagedIndex (h : LogInv H s L) {tr : List (State D × Action D)} {q : Record → Bool}
    {removes : State D → Action D → Bool} (hindexes : Indexes H tr (records L) q removes)
    {f : ℕ → ℕ → Fn D (List (Event D))} {query : ℕ → Fn D (Event D)}
    (hf : ∀ env offset limit, 1 ≤ limit → limit ≤ 100 → (f offset limit).run env s =
      (readPage (entries H q removes tr).length query offset limit).run env s)
    (hquery : ∀ env (k i : ℕ) p, (entries H q removes tr)[k]? = some i → L[i]? = some p →
      (query k).run env s = .ok (p.2, s)) : PagedIndex H tr s q removes f := by
  have hlen : (records L).length = L.length := List.length_map ..
  have hlt : ∀ i ∈ entries H q removes tr, i < L.length := fun i hi => by
    have := List.lt_add_of_mem_findIdxs i (hindexes.sublist.mem hi)
    omega
  have hle : (entries H q removes tr).length ≤ L.length := by
    have := hindexes.sublist.length_le
    have := List.countP_le_length (p := q) (l := records L)
    rw [List.length_findIdxs] at *
    omega
  have hshort : ((entries H q removes tr).filterMap (eventAt s)).length < 2 ^ 32 := by
    have := List.length_filterMap_le (eventAt s) (entries H q removes tr)
    have := h.chain.length_lt
    omega
  refine ⟨paged_of_window hshort fun env offset limit h1 h100 => ?_, ?_, fun hall => ?_⟩
  · rw [hf env offset limit h1 h100, h.readPage_index hlt hle (hquery env)]
  · rw [← h.filterMap_findIdxs]
    exact hindexes.sublist.filterMap _
  · rw [hindexes.complete hall, h.filterMap_findIdxs]

/-- An empty index needs no page. -/
theorem readPage_nonempty {total : ℕ} {fetch : ℕ → Fn D (Event D)} {offset limit : ℕ} :
    (if total = 0 then return [] else readPage total fetch offset limit) =
      readPage total fetch offset limit := by
  split_ifs with h0
  · rw [readPage, if_pos (by omega)]
  · rfl

/-- **The pages of every query partition what it is about**, in every reachable state: the
    log, the events of a time range, those that contain the query bytes, and the entries of
    an index. -/
theorem pages_partition (hinj : Function.Injective H.sha256) {tr : List (State D × Action D)}
    (h : History H tr s) :
    Paged listEvents s (eventsOf s) ∧
      (∀ startTime endTime, Paged (getEventsByTimeRange startTime endTime) s
        ((eventsOf s).filter fun e => startTime ≤ e.timestamp ∧ e.timestamp ≤ endTime)) ∧
      (∀ query, Paged (searchEvents query) s ((eventsOf s).filter fun e => query <:+: e.metadata)) ∧
      (∀ a, PagedIndex H tr s (·.submitter = a) (fun _ _ => false) (getEventsBySubmitter a)) ∧
      (lowCost s = false → ∀ t,
        PagedIndex H tr s (·.eventType = t) (fun s a => a.compacts s t) (listEventsByType t) ∧
          PagedIndex H tr s (·.eventType = t) (fun s a => a.compacts s t) (getEventsByType t)) := by
  obtain ⟨hpacked, L, hL, hindexes⟩ := packed_of_history hinj h
  have hword : ∀ {q : Record → Bool} {removes}, (∀ r, q r.core = q r) →
      ∀ i ∈ entries H q removes tr, i < 2 ^ 32 := fun {q removes} hq i hi => by
    have := List.lt_add_of_mem_findIdxs i ((hindexes q hq removes).sublist.mem hi)
    have := hL.chain.length_lt
    rw [records, List.length_map] at *
    omega
  refine ⟨hL.listEvents_paged, hL.getEventsByTimeRange_paged, hL.searchEvents_paged, fun a => ?_,
    fun hlow t => ?_⟩
  · have hquery : ∀ env (k i : ℕ) p, (submitterEntries H a tr)[k]? = some i → L[i]? = some p →
        (getEventBySubmitter a k).run env s = .ok (p.2, s) := fun env k i p hk hp =>
      hL.getEventBySubmitter_run (hpacked.submitterIndex a) (hword fun _ => rfl)
        (hpacked.submitterBound a) (hpacked.submitterTotal a) hk hp
    refine hL.pagedIndex (hindexes _ (fun _ => rfl) _) (fun env offset limit h1 h100 => ?_) hquery
    rw [getEventsBySubmitter, run_bind_ok _ _ hL.requireInitialized_run, withLimit_run h1 h100,
      run_bind_ok _ _ (submitterCount_run a), hpacked.submitterTotal, readPage_nonempty]
    rfl
  · have hcount : ∀ env, (eventTypeCount t : Fn D ℕ).run env s = .ok ((typeEntries H t tr).length, s) :=
      fun env => eventTypeCount_run (hpacked.typeIndex t)
    have hquery : ∀ env (k i : ℕ) p, (typeEntries H t tr)[k]? = some i → L[i]? = some p →
        (getEventByType t k).run env s = .ok (p.2, s) := fun env k i p hk hp =>
      hL.getEventByType_run hlow (hpacked.typeIndex t) (hword fun _ => rfl) (hpacked.typeBound t) hk hp
    refine ⟨hL.pagedIndex (hindexes _ (fun _ => rfl) _) (fun env offset limit h1 h100 => ?_) hquery,
      hL.pagedIndex (hindexes _ (fun _ => rfl) _) (fun env offset limit h1 h100 => ?_) hquery⟩
    · rw [listEventsByType, withLimit_run h1 h100, run_bind_ok _ _ (hcount env)]
      rfl
    · rw [getEventsByType, run_bind_ok _ _ hL.requireInitialized_run, withLimit_run h1 h100,
        run_bind_ok _ _ (hcount env), readPage_nonempty]
      rfl

/-- Two types, an update, and an index removed. -/
def pagedScript : List (Env × Op Bytes) :=
  [(openEnv 11, .logEvent (account 66) "a" [1, 2] none none false),
    (openEnv 12, .logEvents [(account 66, "b", [2]), (account 67, "a", [3])]),
    (openEnv 13, .updateEvent (account 65) 0 [7, 2]),
    (openEnv 14, .compactStorage (account 65) ["b"])]

theorem pages_partition_pagedScript : ∃ s, Reachable plainHost s ∧
    (eventsOf s).map (·.metadata) = [[7, 2], [2], [3]] ∧
    Paged (searchEvents [2]) s ((eventsOf s).filter fun e => [2] <:+: e.metadata) ∧
    Paged (getEventsByType "a") s ((eventsOf s).filter fun e => e.eventType = "a") := by
  let s₀ : State Bytes := deployed (openEnv 10) (account 65) 100 50
  obtain ⟨s, hs⟩ : ∃ s, play plainHost s₀ pagedScript = some s :=
    Option.isSome_iff_exists.1 (by decide +kernel)
  have hkept : (traceOf plainHost s₀ pagedScript).all (fun p => p.2.compacts p.1 "a" = false ∧
      p.2.skips plainHost p.1 (·.eventType = "a") = false) = true := by decide +kernel
  have hview : (play plainHost s₀ pagedScript).map (fun s => (lowCost s, (eventsOf s).map (·.metadata))) =
      some (false, [[7, 2], [2], [3]]) := by decide +kernel
  rw [hs] at hview
  simp only [Option.map_some, Option.some.injEq, Prod.mk.injEq] at hview
  have hist := history_of_play (init_deployed rfl 100 50) hs
  obtain ⟨-, -, hsearch, -, htypes⟩ := pages_partition Function.injective_id hist
  have htype := (htypes hview.1 "a").2
  refine ⟨s, ⟨_, hist⟩, hview.2, hsearch [2], ?_⟩
  have hall := htype.complete fun p hp => of_decide_eq_true (List.all_eq_true.1 hkept p hp)
  exact hall ▸ htype.paged

/-- When the first page is empty there is nothing to list. -/
theorem Paged.eq_nil {f : ℕ → ℕ → Fn D (List (Event D))} {l : List (Event D)} (h : Paged f s l)
    (hempty : ((f 0 1).run env s).toOption.map (·.1.isEmpty) = some true) : l = [] := by
  obtain ⟨pages, rfl, hpage, -⟩ := h.listed env 1 (by omega) (by omega)
  cases pages with
  | nil => rfl
  | cons page pages =>
    obtain ⟨hne, -, hrun⟩ := hpage 0 page rfl
    rw [hrun] at hempty
    exact absurd (List.isEmpty_iff.1 (Option.some.inj hempty)) hne

/-- An event logged in low-cost mode is on no page of its type, once the mode is off again. -/
theorem event_on_no_page : ∃ s, Reachable plainHost s ∧ lowCost s = false ∧
    ¬Paged (getEventsByType "a") s ((eventsOf s).filter fun e => e.eventType = "a") := by
  let s₀ : State Bytes := deployed (openEnv 10) (account 65) 100 50
  let script : List (Env × Op Bytes) :=
    [(openEnv 11, .setLowCostMode (account 65) true),
      (openEnv 12, .logEvent (account 66) "a" [1] none none false),
      (openEnv 13, .setLowCostMode (account 65) false)]
  obtain ⟨s, hs⟩ : ∃ s, play plainHost s₀ script = some s :=
    Option.isSome_iff_exists.1 (by decide +kernel)
  let view (s : State Bytes) : Bool × Option Bool × ℕ :=
    (lowCost s, ((getEventsByType "a" 0 1 : Fn Bytes _).run (openEnv 14) s).toOption.map (·.1.isEmpty),
      ((eventsOf s).filter fun e => e.eventType = "a").length)
  have hview : (play plainHost s₀ script).map view = some (false, some true, 1) := by decide +kernel
  rw [hs] at hview
  simp only [view, Option.map_some, Option.some.injEq, Prod.mk.injEq] at hview
  obtain ⟨hlow, hempty, hone⟩ := hview
  refine ⟨s, ⟨_, history_of_play (init_deployed rfl 100 50) hs⟩, hlow, fun hpaged => ?_⟩
  rw [hpaged.eq_nil hempty] at hone
  cases hone

/-! ## Categories -/

/-- `event_count_by_category` -/
def eventCountByCategory (category : Symbol) : Fn D ℕ := do
  let total ← totalEvents
  (List.range total).foldlM (fun cnt i => do
    let id ← unwrap (← get .eventOrder i)
    let evt ← unwrap (← get .eventData id)
    if evt.category = category then addChecked 32 cnt 1 else return cnt) 0

/-- The loop of `list_events_by_category`, with `n` positions to go. -/
def scanCategory (category : Symbol) (limit : ℕ) : ℕ → ℕ → List EventHeader → Fn D (List EventHeader)
  | 0, _, out => return out
  | n + 1, i, out =>
    if out.length < limit then do
      let id ← unwrap (← get .eventOrder i)
      let evt ← unwrap (← get .eventData id)
      scanCategory category limit n (i + 1) (if evt.category = category then out ++ [headerOf evt] else out)
    else return out

/-- `list_events_by_category` -/
def listEventsByCategory (category : Symbol) (start limit : ℕ) : Fn D (List EventHeader) := do
  let total ← totalEvents
  if start ≥ total then return [] else scanCategory category limit (total - start) start []

/-- The headers of the events of a category. -/
def categoryHeaders (s : State D) (category : Symbol) : List EventHeader :=
  ((eventsOf s).filter (·.category = category)).map headerOf

section
variable {category : Symbol} {limit : ℕ}

theorem LogInv.countCategory_run (h : LogInv H s L) :
    ∀ (n i cnt : ℕ), i + n ≤ L.length → cnt ≤ i →
      ((List.range' i n).foldlM (fun cnt i => do
        let id ← unwrap (← get .eventOrder i)
        let evt ← unwrap (← get .eventData id)
        if evt.category = category then addChecked 32 cnt 1 else return cnt) cnt : Fn D ℕ).run env s =
      .ok (cnt + (((L.drop i).take n).map Prod.snd).countP (·.category = category), s)
  | 0, _, cnt, _, _ => by simp
  | n + 1, i, cnt, hn, hcnt => by
    have hi : i < L.length := by omega
    have hp : L[i]? = some L[i] := List.getElem?_eq_getElem hi
    have hlt := h.chain.length_lt
    rw [List.range'_succ, List.foldlM_cons, List.drop_eq_getElem_cons hi, List.take_succ_cons, List.map_cons,
      List.countP_cons]
    have hround : (do
        let id ← unwrap (← get .eventOrder i)
        let evt ← unwrap (← get .eventData id)
        if evt.category = category then addChecked 32 cnt 1 else return cnt : Fn D ℕ).run env s =
        .ok (if L[i].2.category = category then cnt + 1 else cnt, s) := by
      rw [run_bind_ok _ _ (run_load ..), h.holds.get_order hp, run_bind_ok _ _ (run_unwrap_some ..),
        run_bind_ok _ _ (run_load ..), h.holds.get_data hp, run_bind_ok _ _ (run_unwrap_some ..)]
      split_ifs
      · exact run_addChecked _ _ (by omega)
      · rfl
    rw [run_bind_ok _ _ hround, countCategory_run h n (i + 1) _ (by omega) (by split_ifs <;> omega)]
    by_cases hc : L[i].2.category = category <;> simp [hc, Nat.add_assoc, Nat.add_comm 1]

theorem LogInv.scanCategory_run (h : LogInv H s L) :
    ∀ (n i : ℕ) (out : List EventHeader), i + n = L.length →
      (scanCategory category limit n i out).run env s =
        .ok (out ++ ((((L.drop i).map Prod.snd).filter (·.category = category)).map headerOf).take
          (limit - out.length), s)
  | 0, i, out, hn => by
    rw [scanCategory, List.drop_eq_nil_of_le (by omega)]
    simp
  | n + 1, i, out, hn => by
    have hi : i < L.length := by omega
    have hp : L[i]? = some L[i] := List.getElem?_eq_getElem hi
    rw [scanCategory]
    split_ifs with hlim
    · rw [run_bind_ok _ _ (run_load ..), h.holds.get_order hp, run_bind_ok _ _ (run_unwrap_some ..),
        run_bind_ok _ _ (run_load ..), h.holds.get_data hp, run_bind_ok _ _ (run_unwrap_some ..),
        scanCategory_run h n (i + 1) _ (by omega), List.drop_eq_getElem_cons hi, List.map_cons]
      obtain ⟨k, hk⟩ : ∃ k, limit - out.length = k + 1 := ⟨limit - out.length - 1, by omega⟩
      by_cases hc : L[i].2.category = category
      · have hk' : limit - (out ++ [headerOf L[i].2]).length = k := by
          rw [List.length_append, List.length_singleton]
          omega
        rw [if_pos hc, hk', hk, List.filter_cons_of_pos (by simpa using hc), List.map_cons, List.take_succ_cons,
          List.append_assoc, List.singleton_append]
      · rw [if_neg hc, List.filter_cons_of_neg (by simpa using hc)]
    · rw [Nat.sub_eq_zero_of_le (Nat.not_lt.1 hlim), List.take_zero, List.append_nil, run_pure]

theorem LogInv.index_eventsOf (h : LogInv H s L) {i : ℕ} {e : Event D} (he : (eventsOf s)[i]? = some e) :
    e.index = i := by
  rw [h.eventsOf_eq, List.getElem?_map] at he
  obtain ⟨p, hp, rfl⟩ := Option.map_eq_some_iff.1 he
  exact (h.chain.placed i p hp).index_eq

/-- The events from a position on are those of an index from there on. -/
theorem LogInv.drop_eventsOf (h : LogInv H s L) (start : ℕ) :
    (eventsOf s).drop start = (eventsOf s).filter (start ≤ ·.index) := by
  have hbefore : ((eventsOf s).take start).filter (start ≤ ·.index) = [] := by
    refine List.filter_eq_nil_iff.2 fun e he => ?_
    obtain ⟨i, hi, rfl⟩ := List.getElem_of_mem he
    rw [List.getElem_take, h.index_eventsOf (List.getElem?_eq_getElem _), decide_eq_true_eq]
    rw [List.length_take] at hi
    omega
  have hafter : ((eventsOf s).drop start).filter (start ≤ ·.index) = (eventsOf s).drop start := by
    refine List.filter_eq_self.2 fun e he => ?_
    obtain ⟨i, hi, rfl⟩ := List.getElem_of_mem he
    rw [List.getElem_drop, h.index_eventsOf (List.getElem?_eq_getElem _), decide_eq_true_eq]
    exact Nat.le_add_right ..
  conv_rhs => rw [← List.take_append_drop start (eventsOf s), List.filter_append, hbefore, hafter, List.nil_append]

/-- **`list_events_by_category`** lists the headers from an index on. -/
theorem LogInv.listEventsByCategory_run (h : LogInv H s L) (category : Symbol) (start limit : ℕ) :
    (listEventsByCategory category start limit : Fn D _).run env s =
      .ok (((categoryHeaders s category).filter (start ≤ ·.index)).take limit, s) := by
  have hwindow : (categoryHeaders s category).filter (start ≤ ·.index) =
      (((L.drop start).map Prod.snd).filter (·.category = category)).map headerOf := by
    rw [List.map_drop, ← h.eventsOf_eq, h.drop_eventsOf, categoryHeaders, List.filter_map, List.filter_filter,
      List.filter_filter]
    simp only [Function.comp_def, headerOf, Bool.and_comm]
    rfl
  rw [listEventsByCategory, run_bind_ok _ _ h.totalEvents_run, hwindow]
  split_ifs with hend
  · simp [List.drop_eq_nil_of_le hend]
  · rw [h.scanCategory_run _ _ _ (by omega)]
    rfl

/-- Where a sorted list is cut, an index tells the parts. -/
theorem take_append_filter {l : List EventHeader} (hl : l.Pairwise (·.index < ·.index)) {x : EventHeader}
    {k m : ℕ} (hx : x ∈ (l.take k).getLast?) :
    l.take (k + m) = l.take k ++ (l.filter (x.index + 1 ≤ ·.index)).take m := by
  have hparts := hl
  rw [← List.take_append_drop k l, List.pairwise_append] at hparts
  obtain ⟨htake, -, hcross⟩ := hparts
  obtain ⟨r, hr⟩ := List.getLast?_eq_some_iff.1 hx
  have hbefore : (l.take k).filter (x.index + 1 ≤ ·.index) = [] := by
    refine List.filter_eq_nil_iff.2 fun y hy => ?_
    rw [decide_eq_true_eq]
    rw [hr, List.pairwise_append] at htake
    rw [hr, List.mem_append, List.mem_singleton] at hy
    rcases hy with hy | rfl
    · have := htake.2.2 y hy x (List.mem_singleton_self x)
      omega
    · omega
  have hafter : (l.drop k).filter (x.index + 1 ≤ ·.index) = l.drop k := by
    refine List.filter_eq_self.2 fun y hy => ?_
    rw [decide_eq_true_eq]
    exact hcross x (by rw [hr]; simp) y hy
  have hrest : l.filter (x.index + 1 ≤ ·.index) = l.drop k := by
    conv_lhs => rw [← List.take_append_drop k l, List.filter_append, hbefore, hafter, List.nil_append]
  rw [hrest, List.take_add]

theorem LogInv.pairwise_categoryHeaders (h : LogInv H s L) (category : Symbol) :
    (categoryHeaders s category).Pairwise (·.index < ·.index) := by
  rw [categoryHeaders, List.pairwise_map]
  refine List.Pairwise.filter _ ?_
  rw [List.pairwise_iff_getElem]
  intro i j hi hj hij
  rw [headerOf, headerOf, h.index_eventsOf (List.getElem?_eq_getElem hi),
    h.index_eventsOf (List.getElem?_eq_getElem hj)]
  exact hij

/-- **The events of a category**, in every reachable state: `event_count_by_category` counts them,
    `list_events_by_category` lists them from an index on, and goes on after the index of the last one. -/
theorem category_listed (env : Env) (hinj : Function.Injective H.sha256) (h : Reachable H s) (category : Symbol) :
    ∃ l : List EventHeader, l.Pairwise (·.index < ·.index) ∧
      (∀ x, x ∈ l ↔ ∃ e, (getEventByOrder x.index : Fn D (Event D)).run env s = .ok (e, s) ∧
        e.category = category ∧ headerOf e = x) ∧
      (eventCountByCategory category : Fn D ℕ).run env s = .ok (l.length, s) ∧
      ∀ start limit, ∃ page, (listEventsByCategory category start limit : Fn D _).run env s = .ok (page, s) ∧
        page = (l.filter (start ≤ ·.index)).take limit ∧
        ∀ x ∈ page.getLast?, ∀ m, ∃ rest,
          (listEventsByCategory category (x.index + 1) m : Fn D _).run env s = .ok (rest, s) ∧
          (listEventsByCategory category start (limit + m) : Fn D _).run env s = .ok (page ++ rest, s) := by
  obtain ⟨tr, htr⟩ := h
  obtain ⟨R, L, hL, -⟩ := hasLog_of_history hinj htr
  have hsorted := hL.pairwise_categoryHeaders category
  refine ⟨categoryHeaders s category, hsorted, fun x => ?_, ?_, fun start limit =>
    ⟨_, hL.listEventsByCategory_run category start limit, rfl, fun x hx m =>
      ⟨_, hL.listEventsByCategory_run category (x.index + 1) m, ?_⟩⟩⟩
  · simp only [categoryHeaders, List.mem_map, List.mem_filter, decide_eq_true_eq]
    constructor
    · rintro ⟨e, ⟨he, hc⟩, rfl⟩
      obtain ⟨i, hi⟩ := List.mem_iff_getElem?.1 he
      have hix : (headerOf e).index = i := hL.index_eventsOf hi
      exact ⟨e, by rw [hix]; exact hL.fetch_eventsOf env i e hi, hc, rfl⟩
    · rintro ⟨e, hrun, hc, hx⟩
      have hat : eventAt s x.index = some e :=
        (post_getEventByOrder (Q := fun e _ => eventAt s x.index = some e) fun _ => id).of_run hrun
      rw [hL.holds.eventAt_eq, ← List.getElem?_map, ← hL.eventsOf_eq] at hat
      exact ⟨e, ⟨List.mem_of_getElem? hat, hc⟩, hx⟩
  · rw [eventCountByCategory, run_bind_ok _ _ hL.totalEvents_run, List.range_eq_range',
      hL.countCategory_run _ _ _ (by omega) le_rfl, List.drop_zero, List.take_length, ← hL.eventsOf_eq,
      Nat.zero_add, List.countP_eq_length_filter, categoryHeaders, List.length_map]
  · have hstart : start ≤ x.index := by
      have hmem := (List.mem_filter.1 (List.mem_of_mem_take (List.mem_of_getLast? hx))).2
      exact of_decide_eq_true hmem
    have hrest : ((categoryHeaders s category).filter (start ≤ ·.index)).filter (x.index + 1 ≤ ·.index) =
        (categoryHeaders s category).filter (x.index + 1 ≤ ·.index) := by
      rw [List.filter_filter]
      refine List.filter_congr fun y _ => ?_
      rw [← Bool.decide_and, decide_eq_decide]
      omega
    rw [hL.listEventsByCategory_run, take_append_filter (hsorted.filter _) hx, hrest]

end

/-- Three events, of two categories. -/
def categoryScript : List (Env × Op Bytes) :=
  [(openEnv 11, .logEvent (account 66) "a" [1] (some "finance") none false),
    (openEnv 12, .logEvent (account 66) "a" [2] none none false),
    (openEnv 13, .logEvent (account 67) "b" [3] (some "finance") none false)]

theorem category_listed_categoryScript : ∃ (s : State Bytes) (rest : List EventHeader), Reachable plainHost s ∧
    (listEventsByCategory "finance" 0 1 : Fn Bytes _).run (openEnv 14) s =
      .ok ([⟨0, 11, "a", account 66⟩], s) ∧
    (listEventsByCategory "finance" 1 5 : Fn Bytes _).run (openEnv 14) s = .ok (rest, s) ∧
    (listEventsByCategory "finance" 0 6 : Fn Bytes _).run (openEnv 14) s =
      .ok (⟨0, 11, "a", account 66⟩ :: rest, s) := by
  let s₀ : State Bytes := deployed (openEnv 10) (account 65) 100 50
  obtain ⟨s, hs⟩ : ∃ s, play plainHost s₀ categoryScript = some s :=
    Option.isSome_iff_exists.1 (by decide +kernel)
  have hview : (play plainHost s₀ categoryScript).map (fun s =>
      ((listEventsByCategory "finance" 0 1 : Fn Bytes _).run (openEnv 14) s).toOption.map (·.1)) =
      some (some [⟨0, 11, "a", account 66⟩]) := by decide +kernel
  rw [hs, Option.map_some, Option.some.injEq] at hview
  have hreach : Reachable plainHost s := ⟨_, history_of_play (init_deployed rfl 100 50) hs⟩
  obtain ⟨l, -, -, -, hlist⟩ := category_listed (openEnv 14) Function.injective_id hreach "finance"
  obtain ⟨page, hpage, -, hnext⟩ := hlist 0 1
  rw [hpage] at hview
  obtain rfl : page = [⟨0, 11, "a", account 66⟩] := Option.some.inj hview
  obtain ⟨rest, hrest, hall⟩ := hnext _ rfl 5
  exact ⟨s, rest, hreach, hpage, hrest, hall⟩

end AuditLedger
