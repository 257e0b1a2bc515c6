/-
  AuditLedger — what the write paths do to the log.

  `LogInv H s L` is the invariant of the contract: `s` holds the chain `L`, both
  counters say how long it is, and every recorded version of an event agrees
  with the event in everything but the metadata.  For each function that writes
  events there is one theorem: it keeps the invariant, and the records of the
  new log are those of the old one amended or extended.
-/
import AuditTransparency.Ledger.Log

namespace AuditLedger

open Soroban
open Soroban.Call hiding hasPers publish

variable {D : Type} [DecidableEq D] {H : Host D} {env : Env} {s s' : State D} {L : List (Entry D)}

/-! ## The invariant -/

/-- The record without its metadata. -/
def Record.core (r : Record) : Record := { r with metadata := [] }

/-- The recorded versions are versions of the events they are recorded for. -/
def Versions (s : State D) (L : List (Entry D)) : Prop :=
  ∀ (i : ℕ) (vs : List (EventVersion D)), s.inst .eventVersions i = some vs →
    ∃ p, L[i]? = some p ∧ ∀ v ∈ vs, v.data.index = i ∧ v.data.record.core = p.2.record.core

/-- Both copies of `total_events` say `n`. -/
structure Counted (s : State D) (n : ℕ) : Prop where
  config : ∃ c, s.inst .config () = some c ∧ c.totalEvents = n
  runtime : ∃ r, s.inst .runtimeState () = some r ∧ r.totalEvents = n

/-- **The invariant of the log.** -/
structure LogInv (H : Host D) (s : State D) (L : List (Entry D)) : Prop where
  holds : Holds s L
  chain : Chain H L
  counted : Counted s L.length
  versions : Versions s L
  owned : (s.inst .owner ()).isSome

/-- The keys the invariant reads. -/
abbrev logKeys : List DataKey :=
  [.eventOrder, .eventData, .config, .runtimeState, .eventVersions, .owner]

/-- **The log is `R`**, to a reader of `s`. -/
def HasLog (H : Host D) (s : State D) (R : List Record) : Prop := ∃ L, LogInv H s L ∧ records L = R

theorem LogInv.of_eq (h : LogInv H s L) (hs : ∀ f ∈ logKeys, s'.inst f = s.inst f) :
    LogInv H s' L where
  holds := h.holds.of_eq (hs _ (by simp)) (hs _ (by simp))
  chain := h.chain
  counted := ⟨by rw [hs _ (by simp)]; exact h.counted.config,
    by rw [hs _ (by simp)]; exact h.counted.runtime⟩
  versions := by unfold Versions; rw [hs _ (by simp)]; exact h.versions
  owned := by rw [hs _ (by simp)]; exact h.owned

theorem LogInv.requireInitialized_run (h : LogInv H s L) :
    (requireInitialized : Fn D Unit).run env s = .ok ((), s) := by
  obtain ⟨c, hc, -⟩ := h.counted.config
  obtain ⟨a, ha⟩ := Option.isSome_iff_exists.1 h.owned
  simp [requireInitialized, run_bind, run_rejectIf, hc, ha, Except.bind]

/-- What a function reads of the counters. -/
theorem LogInv.totalEvents_run (h : LogInv H s L) :
    (totalEvents : Fn D ℕ).run env s = .ok (L.length, s) := by
  obtain ⟨r, hr, hn⟩ := h.counted.runtime
  rw [totalEvents, run_bind_ok _ _ h.requireInitialized_run]
  simp [run_bind, hr, hn, Except.bind]

/-- The end of the queries: the event at a position of the log. -/
theorem LogInv.fetch_run (h : LogInv H s L) {i : ℕ} {p : Entry D} (hi : L[i]? = some p)
    (e e' : ContractError) :
    (get .eventOrder i >>= fun o => unwrapOr o e >>= fun id => get .eventData id >>= fun d =>
      unwrapOr d e' : Fn D (Event D)).run env s = .ok (p.2, s) := by
  have hid : (unwrapOr (s.inst .eventOrder i) e : Fn D D).run env s = .ok (p.1, s) := by
    rw [h.holds.get_order hi]; rfl
  rw [run_bind_ok _ _ (run_load ..), run_bind_ok _ _ hid, run_bind_ok _ _ (run_load ..),
    h.holds.get_data hi]
  rfl

/-! ## Re-linking -/

/-- **The re-linking loop.**  After the entries `A`, the loop links the rest of
    the log afresh. -/
theorem post_relinkLater {A B : List (Entry D)} {k : ℕ} {p : D} (h : Holds s (A ++ B))
    (hA : A.length = k + 1) (hd : DistinctIds (A ++ B)) :
    Post (relinkLater H k (A ++ B).length p)
      (fun _ s' => Holds s' (A ++ (linking H).relinkAll p (k + 1) B)) env s := by
  -- the log after `j` rounds
  let M (j : ℕ) : List (Entry D) := (linking H).relinkAll p (k + 1) (B.take j)
  have hlen : (A ++ B).length - (k + 1) = B.length := by simp [hA]
  rw [relinkLater, hlen]
  have hend : M B.length = (linking H).relinkAll p (k + 1) B := by simp [M]
  refine (post_range' (fun j x s' => Holds s' (A ++ M j ++ B.drop j) ∧ x = (linking H).tail p (M j))
    _ _ _ _ (by simpa [M, Linking.relinkAll, Linking.tail] using h) ?_).mono
    (fun _ s' h' => by simpa [hend] using h'.1)
  rintro j x t hj ⟨ht, rfl⟩
  obtain ⟨q, hq⟩ : ∃ q, B[j]? = some q := ⟨B[j], List.getElem?_eq_getElem hj⟩
  have hdrop : B.drop j = q :: B.drop (j + 1) := by
    rw [List.drop_eq_getElem_cons hj, (List.getElem?_eq_some_iff.1 hq).2]
  have hMlen : (A ++ M j).length = k + 1 + j := by simp [M, hA]; omega
  have hget : (A ++ M j ++ B.drop j)[k + 1 + j]? = some q := by
    rw [hdrop, ← hMlen]; simp
  have hdist : DistinctIds (A ++ M j ++ B.drop j) := hd.congr <| by
    have hM : (M j).map Prod.fst = (B.take j).map Prod.fst :=
      Linking.map_relinkAll (S := linking H) (f := Prod.fst) (fun _ _ _ => rfl) ..
    rw [List.map_append, List.map_append, hM, List.append_assoc, ← List.map_append,
      List.take_append_drop, List.map_append]
  let q' : Entry D := (linking H).link ((linking H).tail p (M j)) (k + 1 + j) q
  have hstep : M (j + 1) = M j ++ [q'] := by
    have htake : B.take (j + 1) = B.take j ++ [q] := by
      rw [List.take_succ_eq_append_getElem hj, (List.getElem?_eq_some_iff.1 hq).2]
    simp only [M, q', htake, Linking.relinkAll_snoc, List.length_take_of_le hj.le]
  have hset : A ++ M (j + 1) ++ B.drop (j + 1) = (A ++ M j ++ B.drop j).set (k + 1 + j) q' := by
    rw [hstep, hdrop, ← hMlen]; simp
  simp only [relinkEvent, post_bind, post_load, post_unwrap, post_store, post_pure]
  intro id hid e he
  obtain rfl : q.1 = id := by rw [ht.get_order hget] at hid; exact Option.some.inj hid
  obtain rfl : q.2 = e := by rw [ht.get_data hget] at he; exact Option.some.inj he
  refine ⟨?_, by rw [hstep, Linking.tail_append]; rfl⟩
  rw [hset]
  exact ht.setData hget hdist rfl (by simp) (by simp; rfl)

/-- The entry, with a changed parent. -/
def reparent (currentId newId : D) (p : Entry D) : Entry D :=
  if p.2.parentEventId = some currentId then (p.1, { p.2 with parentEventId := some newId }) else p

theorem reparent_body (currentId newId : D) (p : Entry D) :
    (reparent currentId newId p).body = p.body := by unfold reparent; split_ifs <;> rfl

/-- The loop of `update_event` over the children. -/
theorem post_reparent {currentId newId : D} (h : Holds s L) (hd : DistinctIds L) :
    Post ((List.range L.length).foldlM (fun _ i => reparentEvent currentId newId i) ())
      (fun _ s' => Holds s' (L.map (reparent currentId newId))) env s := by
  let M (j : ℕ) : List (Entry D) := (L.take j).map (reparent currentId newId) ++ L.drop j
  have hend : M L.length = L.map (reparent currentId newId) := by
    simp only [M, List.take_length, List.drop_length, List.append_nil]
  refine (post_range (fun j _ s' => Holds s' (M j)) (by simpa [M] using h) ?_).mono
    (fun _ s' h' => hend ▸ h')
  intro j _ t hj ht
  obtain ⟨q, hq⟩ : ∃ q, L[j]? = some q := ⟨L[j], List.getElem?_eq_getElem hj⟩
  have hdrop : L.drop j = q :: L.drop (j + 1) := by
    rw [List.drop_eq_getElem_cons hj, (List.getElem?_eq_some_iff.1 hq).2]
  have hlen : ((L.take j).map (reparent currentId newId)).length = j := by simp; omega
  have hget : (M j)[j]? = some q := by
    simp only [M, hdrop]; rw [List.getElem?_append_right hlen.le, hlen]; simp
  have hset : M (j + 1) = (M j).set j (reparent currentId newId q) := by
    have htake : L.take (j + 1) = L.take j ++ [q] := by
      rw [List.take_succ_eq_append_getElem hj, (List.getElem?_eq_some_iff.1 hq).2]
    simp only [M, htake, hdrop]
    rw [List.set_append_right _ _ hlen.le, hlen]; simp
  have hdist : DistinctIds (M j) := hd.congr <| by
    have hfst : Prod.fst ∘ reparent currentId newId = Prod.fst :=
      funext fun p => by simp only [Function.comp, reparent]; split_ifs <;> rfl
    rw [List.map_append, List.map_map, hfst, ← List.map_append, List.take_append_drop]
  simp only [reparentEvent, post_bind, post_load, post_unwrap, post_doIf, post_store]
  intro id hid e he
  obtain rfl : q.1 = id := by rw [ht.get_order hget] at hid; exact Option.some.inj hid
  obtain rfl : q.2 = e := by rw [ht.get_data hget] at he; exact Option.some.inj he
  rw [hset]
  refine ⟨fun hc => ?_, fun hc => ?_⟩
  · rw [reparent, if_pos hc]
    exact ht.setData hget hdist rfl (by simp) (by simp)
  · rw [reparent, if_neg hc, ← (List.getElem?_eq_some_iff.1 hget).2, List.set_getElem_self]
    exact ht

/-! ## Rewriting -/

/-- The hash a new or rewritten event links to. -/
theorem Holds.prevLink_run (h : Holds s L) (H : Host D) (env : Env) {k : ℕ} (hk : k ≤ L.length) :
    ∃ ts, (prevLink H k).run env s = .ok ((hashBefore H L k, ts), s) := by
  rcases k with _ | k
  · exact ⟨0, rfl⟩
  · obtain ⟨p, hp⟩ : ∃ p, L[k]? = some p := ⟨L[k], List.getElem?_eq_getElem hk⟩
    have hhash : hashBefore H L (k + 1) = p.2.eventHash := Linking.tail_take_succ hp
    refine ⟨p.2.timestamp, ?_⟩
    simp [prevLink, run_bind, h.get_order hp, h.get_data hp, Except.bind, hhash]

/-- Replacing an entry and linking the later ones afresh. -/
theorem post_replace (hinj : Function.Injective H.sha256) (h : Holds s L) (hc : Chain H L) {k : ℕ}
    {newId : D} {evt : Event D} (hk : k < L.length) (hq : Placed H k (newId, evt)) :
    Post (replaceEvent k newId evt >>= fun _ => relinkLater H k L.length evt.eventHash)
      (fun _ s' => Holds s' (rewriteAt H L k (newId, evt))) env s := by
  have hcut : L.set k (newId, evt) = (L.take k ++ [(newId, evt)]) ++ L.drop (k + 1) := by
    rw [List.set_eq_take_append_cons_drop, if_pos hk]; simp
  have hlen : L.length = ((L.take k ++ [(newId, evt)]) ++ L.drop (k + 1)).length := by
    rw [← hcut, List.length_set]
  have hd : DistinctIds (L.set k (newId, evt)) := by
    refine distinctIds_of_placed hinj (fun i p hi => ?_) (by simpa using hc.length_lt)
    by_cases hik : i = k
    · subst hik
      rw [List.getElem?_set_self hk] at hi
      exact Option.some.inj hi ▸ hq
    · rw [List.getElem?_set_ne (Ne.symm hik)] at hi; exact hc.placed i p hi
  simp only [replaceEvent, post_bind, post_store]
  rw [hlen]
  refine (post_relinkLater (A := L.take k ++ [(newId, evt)]) ?_ (by simp; omega) (hcut ▸ hd)).mono
    fun _ s' h' => ?_
  · rw [← hcut]
    refine h.set hk (hc.ne_of_placed hinj (by have := hc.length_lt; omega) hq) (fun i => ?_) (by simp)
    by_cases hik : i = k
    · subst hik; simp
    · simp [hik]
  · rw [List.append_assoc] at h'; exact h'

/-- A new list of versions at one position. -/
theorem Versions.rewrite (hv : Versions s L) {L' : List (Entry D)} {k : ℕ} {p : Entry D} {m : Bytes}
    {vs : List (EventVersion D)} (hp : L[k]? = some p) (hr : records L' = amend (records L) k m)
    (hvs : ∀ v ∈ vs, v.data.index = k ∧ v.data.record.core = p.2.record.core)
    (hs : s'.inst .eventVersions = Function.update (s.inst .eventVersions) k (some vs)) :
    Versions s' L' := by
  have hget : ∀ (i : ℕ) (q : Entry D), L[i]? = some q →
      ∃ q', L'[i]? = some q' ∧ q'.2.record.core = q.2.record.core := by
    intro i q hq
    have hi := congrArg (·[i]?) hr
    simp only [getElem?_amend, records, List.getElem?_map, hq, Option.map_some] at hi
    rcases hL : L'[i]? with _ | q'
    · rw [hL] at hi; split_ifs at hi <;> cases hi
    · refine ⟨q', rfl, ?_⟩
      rw [hL, Option.map_some] at hi
      split_ifs at hi
      · rw [Option.some.inj hi]; rfl
      · rw [Option.some.inj hi]
  intro i us hus
  rw [hs] at hus
  by_cases hik : i = k
  · subst hik
    rw [Function.update_self] at hus
    obtain rfl : vs = us := Option.some.inj hus
    obtain ⟨q', hq', hcore⟩ := hget i p hp
    exact ⟨q', hq', fun v hv => ⟨(hvs v hv).1, (hvs v hv).2.trans hcore.symm⟩⟩
  · rw [Function.update_of_ne hik] at hus
    obtain ⟨q, hq, hall⟩ := hv i us hus
    obtain ⟨q', hq', hcore⟩ := hget i q hq
    exact ⟨q', hq', fun v hv => ⟨(hall v hv).1, (hall v hv).2.trans hcore.symm⟩⟩

/-- Rewriting leaves the counters alone. -/
theorem LogInv.rewritten (h : LogInv H s L) {L' : List (Entry D)}
    (hs : ∀ f ∈ [DataKey.config, .runtimeState, .owner], s'.inst f = s.inst f)
    (hholds : Holds s' L') (hchain : Chain H L') (hv : Versions s' L')
    (hlen : L'.length = L.length) : LogInv H s' L' where
  holds := hholds
  chain := hchain
  counted := by
    rw [hlen]
    exact ⟨by rw [hs _ (by simp)]; exact h.counted.config,
      by rw [hs _ (by simp)]; exact h.counted.runtime⟩
  versions := hv
  owned := by rw [hs _ (by simp)]; exact h.owned

/-- **The writes of a revision** amend one record. -/
theorem post_reviseEvent (hinj : Function.Injective H.sha256) (h : LogInv H s L) {k : ℕ}
    {p : Entry D} {newId : D} {evt : Event D} {m : Bytes} {vs : List (EventVersion D)}
    (hp : L[k]? = some p) (hq : Placed H k (newId, evt)) (hprev : evt.prevHash = hashBefore H L k)
    (hhash : evt.eventHash = computeEventHash H newId evt.prevHash k evt.timestamp)
    (hrec : evt.record = { p.2.record with metadata := m })
    (hvs : ∀ v ∈ vs, v.data.index = k ∧ v.data.record.core = p.2.record.core) :
    Post (reviseEvent H k L.length vs newId evt)
      (fun _ s' => HasLog H s' (amend (records L) k m)) env s := by
  have hk := (List.getElem?_eq_some_iff.1 hp).1
  have hs : Holds (s.put .eventVersions k vs) L := h.holds.of_eq (by simp) (by simp)
  have hr : records (rewriteAt H L k (newId, evt)) = amend (records L) k m := by
    rw [records, map_rewriteAt (fun _ _ _ => rfl) L hk, hrec]
    exact set_eq_amend (by simp [hp]) m
  simp only [reviseEvent, post_bind, post_store, post_pure]
  refine post_bind.1 (Post.with_frame (L := layout D)
    (W := [.eventData, .eventOrder, .eventHeaderKey, .eventMeta, .eventMetadata]) ?_)
  refine (post_replace hinj hs h.chain hk hq).mono fun _ s₂ h₂ hf => ?_
  refine ⟨_, h.rewritten ?_ h₂ (h.chain.rewriteAt hk hq hprev hhash) ?_ (length_of_records hr), hr⟩
  · have hput : s.Frame [DataKey.eventVersions] (s.put .eventVersions k vs) := Ledger.frame_put (by simp)
    intro f hf'
    rw [hf.inst_eq (apart_of_eval rfl) f hf', hput.inst_eq (apart_of_eval rfl) f hf']
  · refine h.versions.rewrite hp hr hvs ?_
    rw [hf.inst (f := DataKey.eventVersions) (by simp)]; simp

/-- The loop over the children keeps what the log says. -/
theorem HasLog.post_reparent (hinj : Function.Injective H.sha256) {R : List Record} {n : ℕ}
    {currentId newId : D} (h : HasLog H s R) (hn : R.length = n) :
    Post ((List.range n).foldlM (fun _ i => reparentEvent currentId newId i) ())
      (fun _ s' => HasLog H s' R) env s := by
  obtain ⟨L, h, rfl⟩ := h
  have hrec : records (L.map (reparent currentId newId)) = records L := by
    simp only [records, List.map_map]
    refine List.map_congr_left fun p _ => ?_
    exact congrArg (·.2.2) (reparent_body currentId newId p)
  rw [← hn, records, List.length_map]
  refine Post.with_frame (L := layout D) (W := [.eventData, .eventMeta])
    ((AuditLedger.post_reparent h.holds (h.chain.distinctIds hinj)).mono fun _ s₃ h₃ hf => ?_)
  refine ⟨_, h.rewritten ?_ h₃ (h.chain.map (reparent_body _ _) ?_ ?_) ?_ (by simp), hrec⟩
  · exact hf.inst_eq (apart_of_eval rfl)
  · intro p; unfold reparent; split_ifs <;> rfl
  · intro p; unfold reparent; split_ifs <;> rfl
  · intro i vs hvs
    rw [hf.inst (f := DataKey.eventVersions) (by simp)] at hvs
    obtain ⟨p, hp, hall⟩ := h.versions i vs hvs
    have hget := congrArg (·[i]?) hrec
    simp only [records, List.getElem?_map, hp, Option.map_some, Option.some.injEq] at hget
    exact ⟨_, by rw [List.getElem?_map, hp]; rfl, fun v hv => ⟨(hall v hv).1, by
      rw [hget]; exact (hall v hv).2⟩⟩

theorem HasLog.of_eq {R : List Record} (h : HasLog H s R) (hs : ∀ f ∈ logKeys, s'.inst f = s.inst f) :
    HasLog H s' R := by
  obtain ⟨L, h, hr⟩ := h
  exact ⟨L, h.of_eq hs, hr⟩

/-- The history a revision extends, and the version it adds. -/
theorem Versions.history (hv : Versions s L) {k : ℕ} {p : Entry D} {evt : Event D} {n t : ℕ}
    {a : Address} (hp : L[k]? = some p) (hi : p.2.index = k) (hevt : evt.index = k)
    (hcore : evt.record.core = p.2.record.core) {vs : List (EventVersion D)}
    (hvs : s.inst .eventVersions k = some vs ∨ vs = [originalVersion p.2]) :
    ∀ v ∈ vs ++ [⟨n, evt, t, a⟩], v.data.index = k ∧ v.data.record.core = p.2.record.core := by
  intro v hmem
  rcases List.mem_append.1 hmem with hmem | hmem
  · rcases hvs with hvs | rfl
    · obtain ⟨p', hp', hall⟩ := hv k vs hvs
      obtain rfl : p = p' := Option.some.inj (hp.symm.trans hp')
      exact hall v hmem
    · obtain rfl := List.mem_singleton.1 hmem
      exact ⟨hi, rfl⟩
  · obtain rfl := List.mem_singleton.1 hmem
    exact ⟨hevt, hcore⟩

/-- **`update_event` amends one record.** -/
theorem post_updateEvent (hinj : Function.Injective H.sha256) {R : List Record} (h : HasLog H s R)
    {caller : Address} {k : ℕ} {m : Bytes} :
    Post (updateEvent H caller k m) (fun _ s' => HasLog H s' (amend R k m)) env s := by
  obtain ⟨L, h, rfl⟩ := h
  unfold updateEvent
  refine post_bind_reads fun _ _ => post_bind_reads fun _ _ => post_bind_reads fun n hn => ?_
  obtain rfl : L.length = n := by rw [h.totalEvents_run] at hn; cases hn; rfl
  simp only [post_bind, post_rejectIf, post_load, post_unwrap, post_getEnv, post_ite, post_pure,
    post_publish]
  intro hk id hid e he
  obtain ⟨p, hp⟩ : ∃ p, L[k]? = some p := ⟨L[k], List.getElem?_eq_getElem (not_le.1 hk)⟩
  obtain rfl : p.1 = id := by rw [h.holds.get_order hp] at hid; exact Option.some.inj hid
  obtain rfl : p.2 = e := by rw [h.holds.get_data hp] at he; exact Option.some.inj he
  refine post_reads fun _ _ => ⟨fun heq => ?_, fun hne => ?_⟩
  · -- an equal id has equal metadata, so there is nothing to amend
    obtain ⟨env', hid'⟩ := (h.chain.placed k p hp).id_eq
    obtain rfl : m = p.2.metadata := computeEventId_metadata hinj (heq.trans hid')
    exact ⟨L, h, (amend_self (r := p.2.record) (by simp [records, hp])).symm⟩
  · refine post_reads fun prev hprev => post_reads fun version _ => ?_
    obtain ⟨ts, hts⟩ := h.holds.prevLink_run H env (not_le.1 hk).le
    obtain rfl : (hashBefore H L k, ts) = prev := by rw [hts] at hprev; cases hprev; rfl
    refine Post.mono (post_reviseEvent hinj h (m := m) hp ?_ ?_ ?_ ?_ ?_) fun _ s₁ h₁ =>
      (h₁.post_reparent hinj (by simp [amend, records])).mono fun _ s₂ h₂ =>
        h₂.of_eq fun _ _ => rfl
    · exact ⟨⟨env, rfl⟩, rfl⟩
    · rfl
    · rfl
    · rfl
    · refine h.versions.history hp (h.chain.placed k p hp).index_eq ?_ ?_ ?_
      · rfl
      · rfl
      · rcases hv : s.inst .eventVersions k with _ | vs
        · exact Or.inr (by simp)
        · by_cases hnil : vs = []
          · exact Or.inr (by simp [hnil])
          · exact Or.inl (by simp [hnil])

/-- The history of the event at `k`, as `get_event_history` returns it. -/
def historyOf (s : State D) (k : ℕ) : List (EventVersion D) :=
  (s.inst .eventVersions k).getD ((eventAt s k).map originalVersion).toList

theorem LogInv.getEventHistory_run (h : LogInv H s L) {k : ℕ} (hk : k < L.length) :
    (getEventHistory k).run env s = .ok (historyOf s k, s) := by
  have hp : L[k]? = some L[k] := List.getElem?_eq_getElem hk
  rw [getEventHistory, run_bind_ok _ _ h.totalEvents_run, if_neg (not_le.2 hk), run_bind, historyOf]
  rcases hv : s.inst .eventVersions k with _ | vs
  · simp [onSome, run_bind, hv, h.holds.get_order hp, h.holds.get_data hp, h.holds.eventAt_eq, hp,
      Except.bind]
  · simp [onSome, hv, Except.bind]

/-- The amendment `rollback_event` makes. -/
def rollbackAmends (s : State D) (k v : ℕ) : List (ℕ × Bytes) :=
  ((historyOf s k)[v]?.map fun u => (k, u.data.metadata)).toList

/-- The log after amendments. -/
def amendAll (R : List Record) (l : List (ℕ × Bytes)) : List Record :=
  l.foldl (fun R p => amend R p.1 p.2) R

/-- **`rollback_event` amends one record**, with the metadata of the version. -/
theorem post_rollbackEvent (hinj : Function.Injective H.sha256) {R : List Record} (h : HasLog H s R)
    {caller : Address} {k v : ℕ} :
    Post (rollbackEvent H caller k v)
      (fun _ s' => HasLog H s' (amendAll R (rollbackAmends s k v))) env s := by
  obtain ⟨L, h, rfl⟩ := h
  unfold rollbackEvent
  refine post_bind_reads fun _ _ => post_bind_reads fun _ _ => post_bind_reads fun n hn => ?_
  obtain rfl : L.length = n := by rw [h.totalEvents_run] at hn; cases hn; rfl
  refine post_bind.2 (post_rejectIf.2 fun hk => ?_)
  rw [not_le] at hk
  refine post_bind_reads fun us hus => ?_
  obtain rfl : historyOf s k = us := by rw [h.getEventHistory_run hk] at hus; cases hus; rfl
  obtain ⟨p, hp⟩ : ∃ p, L[k]? = some p := ⟨L[k], List.getElem?_eq_getElem hk⟩
  simp only [post_bind, post_rejectIf, post_load, post_unwrap, post_getEnv, post_ite, post_pure,
    post_publish]
  intro _ u hu id hid
  obtain rfl : p.1 = id := by rw [h.holds.get_order hp] at hid; exact Option.some.inj hid
  have hhist : s.inst .eventVersions k = some (historyOf s k) ∨
      historyOf s k = [originalVersion p.2] := by
    unfold historyOf
    rcases s.inst .eventVersions k with _ | vs
    · exact Or.inr (by simp [h.holds.eventAt_eq, hp])
    · exact Or.inl rfl
  -- the version agrees with the event in everything but the metadata
  obtain ⟨hix, hcore⟩ := h.versions.history (n := 0) (t := 0) (a := caller) hp
    (h.chain.placed k p hp).index_eq (h.chain.placed k p hp).index_eq rfl hhist u
    (List.mem_append_left _ (List.mem_of_getElem? hu))
  simp only [Record.core, Event.record, Record.mk.injEq, and_true] at hcore
  obtain ⟨hts, hty, hcat, hsub⟩ := hcore
  have hrec : u.data.record = { p.2.record with metadata := u.data.metadata } := by
    simp only [Event.record, hts, hty, hcat, hsub]
  have hamend : amendAll (records L) (rollbackAmends s k v) =
      amend (records L) k u.data.metadata := by
    simp [rollbackAmends, hu, amendAll]
  rw [hamend]
  refine ⟨fun heq => ?_, fun hne => ?_⟩
  · obtain ⟨env', hid'⟩ := (h.chain.placed k p hp).id_eq
    rw [hts, hty, hsub] at heq
    rw [computeEventId_metadata hinj (heq.trans hid')]
    exact ⟨L, h, (amend_self (r := p.2.record) (by simp [records, hp])).symm⟩
  · refine post_reads fun prev hprev => post_reads fun version _ => ?_
    obtain ⟨ts, hpl⟩ := h.holds.prevLink_run H env hk.le
    obtain rfl : (hashBefore H L k, ts) = prev := by rw [hpl] at hprev; cases hprev; rfl
    refine Post.mono (post_reviseEvent hinj h (m := u.data.metadata) hp ?_ ?_ ?_ ?_ ?_)
      fun _ s₁ h₁ => h₁.of_eq fun _ _ => rfl
    · exact ⟨⟨env, rfl⟩, hix⟩
    · rfl
    · rfl
    · exact hrec
    · refine h.versions.history hp (h.chain.placed k p hp).index_eq ?_ ?_ hhist
      · exact hix
      · show Record.core u.data.record = _
        rw [hrec]; rfl

/-! ## Erasure -/

theorem HasLog.eventAt {R : List Record} (h : HasLog H s R) (i : ℕ) :
    (eventAt s i).map Event.record = R[i]? := by
  obtain ⟨L, h, rfl⟩ := h
  rw [h.holds.eventAt_eq, records, List.getElem?_map, Option.map_map]; rfl

/-- The storage determines the log. -/
theorem HasLog.unique {R R' : List Record} (h : HasLog H s R) (h' : HasLog H s R') : R = R' :=
  List.ext_getElem? fun i => by rw [← h.eventAt, ← h'.eventAt]

/-- There are no events beyond the total. -/
theorem HasLog.lt_total {R : List Record} (h : HasLog H s R) {cfg : Config}
    (hc : s.inst .config () = some cfg) {i : ℕ} {e : Event D} (he : AuditLedger.eventAt s i = some e) :
    i < cfg.totalEvents := by
  obtain ⟨L, h, -⟩ := h
  obtain ⟨c, hc', hn⟩ := h.counted.config
  obtain rfl : cfg = c := Option.some.inj (hc.symm.trans hc')
  rw [h.holds.eventAt_eq] at he
  obtain ⟨p, hp, -⟩ := Option.map_eq_some_iff.1 he
  rw [hn]; exact (List.getElem?_eq_some_iff.1 hp).1

theorem amendAll_append (R : List Record) (l l' : List (ℕ × Bytes)) :
    amendAll R (l ++ l') = amendAll (amendAll R l) l' := List.foldl_append

theorem core_amendAll (R : List Record) (l : List (ℕ × Bytes)) (i : ℕ) :
    (amendAll R l)[i]?.map Record.core = R[i]?.map Record.core := by
  induction l generalizing R with
  | nil => rfl
  | cons p l ih =>
    refine (ih _).trans ?_
    rw [getElem?_amend]
    split_ifs
    · rw [Option.map_map]; rfl
    · rfl

theorem map_core_amendAll (R : List Record) (l : List (ℕ × Bytes)) :
    (amendAll R l).map Record.core = R.map Record.core :=
  List.ext_getElem? fun i => by rw [List.getElem?_map, List.getElem?_map, core_amendAll]

theorem length_amendAll (R : List Record) (l : List (ℕ × Bytes)) :
    (amendAll R l).length = R.length := by
  simpa using congrArg List.length (map_core_amendAll R l)

/-- A record that is amended only with the metadata it has. -/
theorem getElem?_amendAll {R : List Record} {k : ℕ} {l : List (ℕ × Bytes)} {q : Record}
    (hk : R[k]? = some q)
    (h : ∀ p ∈ l, p.1 = k → q.metadata = p.2) : (amendAll R l)[k]? = some q := by
  induction l generalizing R with
  | nil => exact hk
  | cons p l ih =>
    rw [List.forall_mem_cons] at h
    refine ih ?_ h.2
    rw [getElem?_amend]
    split_ifs with hp
    · rw [hk, Option.map_some, ← h.1 hp.symm]
    · exact hk

/-- `o` is the record of an erasure of the event at `i`, as it is in `s`. -/
def Recorded (H : Host D) (s : State D) (i : ℕ) (o : Option (ErasureRecordData D)) : Prop :=
  ∃ e rec, eventAt s i = some e ∧ o = some rec ∧ rec.erased = true ∧
    rec.originalMetadataHash = H.sha256 e.metadata

/-- `eraseMetadata` empties the metadata of one record. -/
theorem post_eraseMetadata (hinj : Function.Injective H.sha256) {R : List Record} (h : HasLog H s R)
    {caller : Address} {k : ℕ} {e : Event D} {reason : Symbol} (he : eventAt s k = some e) :
    Post (eraseMetadata H caller k e reason)
      (fun _ s' => HasLog H s' (amend R k []) ∧ Recorded H s k (s'.inst .erasureRecord k) ∧
        ∀ i ≠ k, s'.inst .erasureRecord i = s.inst .erasureRecord i) env s := by
  simp only [eraseMetadata, post_bind, post_getEnv, post_store]
  refine Post.with_frame (L := layout D) (W := rewriteWrites)
    ((post_updateEvent hinj h).mono fun _ s' h' hf => ⟨h'.of_eq ?_, ?_, fun i hi => ?_⟩)
  · exact (Ledger.frame_put (L := layout D) (W := [.erasureRecord]) (by simp)).inst_eq (apart_of_eval rfl)
  · exact ⟨e, ⟨true, env.timestamp, caller, H.sha256 e.metadata, reason⟩, he, by simp, rfl, rfl⟩
  · rw [← hf.inst (f := .erasureRecord) (by simp)]
    simp [Function.update_of_ne hi]

/-- The retention sweep erases the event at `i`. -/
def expired (s : State D) (now i : ℕ) : Bool :=
  match eventAt s i with
  | none => false
  | some e =>
    let days := (((s.inst .retentionPolicy e.category).map (·.retentionDays)).or
      (s.inst .defaultRetentionDays ())).getD 0
    ¬(e.category = operationalCategory ∨ ((s.inst .erasureRecord i).map (·.erased)).getD false ∨
      days = 0 ∨ now - e.timestamp ≤ min (days * 86400) (2 ^ 64 - 1) ∨
      ((s.inst .legalHold i).map (·.active)).getD false ∨
      ((s.inst .complianceException i).map fun c =>
        decide (c.expiresAt = 0 ∨ c.expiresAt > now)).getD false)

/-- The amendments of a sweep over `n` positions from `first` on. -/
def sweepAmends (s : State D) (now first n : ℕ) : List (ℕ × Bytes) :=
  ((List.range' first n).filter fun i => expired s now i).map fun i => (i, [])

/-- What decides whether an event has expired. -/
theorem expired_congr {now i : ℕ}
    (he : (eventAt s' i).map (·.record.core) = (eventAt s i).map (·.record.core))
    (hr : s'.inst .erasureRecord i = s.inst .erasureRecord i)
    (hs : ∀ f ∈ [DataKey.retentionPolicy, .defaultRetentionDays, .legalHold, .complianceException],
      s'.inst f = s.inst f) : expired s' now i = expired s now i := by
  have h₁ := hs .retentionPolicy (by simp)
  have h₂ := hs .defaultRetentionDays (by simp)
  have h₃ := hs .legalHold (by simp)
  have h₄ := hs .complianceException (by simp)
  unfold expired
  rcases h' : eventAt s' i with _ | e' <;> rcases h : eventAt s i with _ | e
  · rfl
  · rw [h, h'] at he; cases he
  · rw [h, h'] at he; cases he
  · rw [h, h'] at he
    simp only [Option.map_some, Option.some.injEq, Record.core, Event.record, Record.mk.injEq] at he
    obtain ⟨hts, -, hcat, -⟩ := he
    simp only [h₁, h₂, h₃, h₄, hr, hts, hcat]

/-- One round of the sweep. -/
theorem post_sweepEvent (hinj : Function.Injective H.sha256) {R : List Record} (h : HasLog H s R)
    {caller : Address} {n i : ℕ} :
    Post (sweepEvent H caller n i)
      (fun n' s' => HasLog H s' (amendAll R (sweepAmends s env.timestamp i 1)) ∧
        (expired s env.timestamp i = true → Recorded H s i (s'.inst .erasureRecord i)) ∧
        (∀ j, (j = i → expired s env.timestamp i = false) →
          s'.inst .erasureRecord j = s.inst .erasureRecord j) ∧
        n' = n + (sweepAmends s env.timestamp i 1).length) env s := by
  simp only [sweepEvent, post_bind, getEventByOrder, isEventErased, retentionDaysFor,
    isUnderLegalHold, hasActiveComplianceException, post_load, post_unwrapOr, post_pure,
    post_getEnv, post_ite]
  refine post_reads fun _ _ id hid e he => ?_
  have hat : eventAt s i = some e := by rw [AuditLedger.eventAt, hid]; exact he
  refine ⟨fun hkeep => ?_, fun herase => ?_⟩
  · have hno : expired s env.timestamp i = false := by
      simp only [expired, hat, decide_eq_false_iff_not, not_not]; exact hkeep
    refine ⟨?_, by simp [hno], fun _ _ => rfl, by simp [sweepAmends, hno]⟩
    simpa [sweepAmends, hno, amendAll] using h
  · have hyes : expired s env.timestamp i = true := by
      simp only [expired, hat, decide_eq_true_eq]; exact herase
    refine (post_eraseMetadata hinj h hat).mono fun _ s' h' => ⟨?_, fun _ => h'.2.1, fun j hj => ?_, ?_⟩
    · simpa [sweepAmends, hyes, amendAll] using h'.1
    · refine h'.2.2 j fun hji => ?_
      exact absurd (hj hji) (by simp [hyes])
    · simp [sweepAmends, hyes]

theorem mem_sweepAmends {now first n i : ℕ} : i ∈ (sweepAmends s now first n).map Prod.fst ↔
    (first ≤ i ∧ i < first + n) ∧ expired s now i = true := by
  simp [sweepAmends, and_comm]

/-- **The sweep has visited `n` positions** from `first` on, erased `c` of them and left `t`. -/
structure SweptTo (H : Host D) (R : List Record) (now first : ℕ) (s : State D) (n c : ℕ) (t : State D) :
    Prop where
  log : HasLog H t (amendAll R (sweepAmends s now first n))
  frame : s.Frame (DataKey.erasureRecord :: rewriteWrites) t
  recorded : ∀ i ∈ (sweepAmends s now first n).map Prod.fst, Recorded H s i (t.inst .erasureRecord i)
  kept : ∀ i ∉ (sweepAmends s now first n).map Prod.fst, t.inst .erasureRecord i = s.inst .erasureRecord i
  count : c = (sweepAmends s now first n).length

section
variable {R : List Record} {now first n c : ℕ} {t : State D}

theorem sweptTo_refl (h : HasLog H s R) : SweptTo H R now first s 0 0 s where
  log := by simpa [sweepAmends, amendAll] using h
  frame := Ledger.frame_refl
  recorded := by simp [sweepAmends]
  kept := by simp [sweepAmends]
  count := by simp [sweepAmends]

/-- A sweep changes nothing but the metadata. -/
theorem SweptTo.core_eq (ht : SweptTo H R now first s n c t) (h : HasLog H s R) (i : ℕ) :
    (eventAt t i).map (·.record.core) = (eventAt s i).map (·.record.core) := by
  have hcore := core_amendAll R (sweepAmends s now first n) i
  rw [← ht.log.eventAt, ← h.eventAt, Option.map_map, Option.map_map] at hcore
  exact hcore

/-- Later positions are decided by what they were before the sweep. -/
theorem SweptTo.expired_eq (ht : SweptTo H R now first s n c t) (h : HasLog H s R) {i : ℕ}
    (hi : i ∉ (sweepAmends s now first n).map Prod.fst) : expired t now i = expired s now i :=
  expired_congr (ht.core_eq h i) (ht.kept i hi) (ht.frame.inst_eq (apart_of_eval rfl))

/-- The next round. -/
theorem SweptTo.post_sweepEvent (hinj : Function.Injective H.sha256)
    (ht : SweptTo H R env.timestamp first s n c t) (h : HasLog H s R) {caller : Address} :
    Post (sweepEvent H caller c (first + n)) (SweptTo H R env.timestamp first s (n + 1)) env t := by
  have hnext : first + n ∉ (sweepAmends s env.timestamp first n).map Prod.fst := by
    rw [mem_sweepAmends]; omega
  have hsame := ht.expired_eq h hnext
  have hcat : sweepAmends s env.timestamp first (n + 1) =
      sweepAmends s env.timestamp first n ++ sweepAmends t env.timestamp (first + n) 1 := by
    simp only [sweepAmends, List.range'_1_concat, List.filter_append, List.map_append]
    simp [List.filter_cons, hsame]
  refine Post.with_frame (L := layout D) (W := .erasureRecord :: rewriteWrites)
    ((AuditLedger.post_sweepEvent hinj ht.log).mono fun c' t' ht' hf' => ?_)
  obtain ⟨hlog, hrecorded, hkept, hcount⟩ := ht'
  constructor
  · rw [hcat, amendAll_append]; exact hlog
  · exact ht.frame.trans hf'
  · intro i hi
    by_cases hin : i = first + n
    · -- the event of this round, with the metadata it had at the start
      subst hin
      obtain ⟨e, rec, he, hrec', herased, hdigest⟩ := hrecorded (hsame.trans (mem_sweepAmends.1 hi).2)
      rcases hr : R[first + n]? with _ | q
      · have hcore := core_amendAll R (sweepAmends s env.timestamp first n) (first + n)
        rw [← ht.log.eventAt, he, hr] at hcore
        cases hcore
      have hsaid := getElem?_amendAll (l := sweepAmends s env.timestamp first n) hr
        fun p hp hpk => absurd (hpk ▸ List.mem_map_of_mem hp) hnext
      rw [← ht.log.eventAt, he] at hsaid
      rw [← h.eventAt] at hr
      obtain ⟨e₀, he₀, hq⟩ := Option.map_eq_some_iff.1 hr
      have hmeta : e₀.metadata = e.metadata := by
        have hrecord : e.record = e₀.record := by rw [hq]; exact Option.some.inj hsaid
        exact (congrArg Record.metadata hrecord).symm
      exact ⟨e₀, rec, he₀, hrec', herased, by rw [hdigest, hmeta]⟩
    · rw [hkept i fun h => absurd h hin]
      refine ht.recorded i (mem_sweepAmends.2 ?_)
      have hwindow := mem_sweepAmends.1 hi
      exact ⟨by omega, hwindow.2⟩
  · intro i hi
    rw [hkept i fun h => ?_]
    · refine ht.kept i fun hi' => hi (mem_sweepAmends.2 ?_)
      have hwindow := mem_sweepAmends.1 hi'
      exact ⟨by omega, hwindow.2⟩
    · subst h
      rw [hsame]
      by_contra hyes
      exact hi (mem_sweepAmends.2 ⟨by omega, by simpa using hyes⟩)
  · rw [hcount, ht.count, hcat, List.length_append]

/-- **`run_retention_sweep`** empties the metadata of the expired events of its
    window, and those only, and records what was there. -/
theorem post_sweep (hinj : Function.Injective H.sha256) (h : HasLog H s R) {caller : Address} :
    Post ((List.range' first n).foldlM (sweepEvent H caller) 0) (SweptTo H R env.timestamp first s n)
      env s :=
  post_range' (SweptTo H R env.timestamp first s) n first 0 s (sweptTo_refl h)
    fun _ _ _ _ ht => ht.post_sweepEvent hinj h

end

end AuditLedger
