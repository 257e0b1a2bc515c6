/-
  MultiTenantLedger — the log of a tenant.

  The events a tenant has logged are stored under their ids; the order, the chain
  and the indices of the types refer to positions.  `TenantLog` says how the storage
  holds a list of events; every run keeps it for the events its calls have stored
  (`tenantLog_of_run`).  An event can be read as long as no later one has its id.

  The id is computed from the tenant, the type, the submitter, the metadata and the
  ledger time, so two calls that agree in these have one id, and the second
  overwrites what the first has stored:

  * `history_tenant_log`: the log reads back what was stored if and only if no two
    calls agree in all of these.
-/
import AuditTransparency.MultiTenant.Effects
import Mathlib.Data.List.Nodup

namespace MultiTenantLedger

open Soroban
open Soroban.Call hiding publish
open AuditLedger (u32ToBytes u64ToBytes openEnv account length_flatMap_u32ToBytes words_flatMap_u32ToBytes
  u64ToBytes_toNat_injective u64ToBytes_ofNat)

variable {D : Type}

/-! ## Lists of events -/

/-- The id the next event has to link to. -/
def lastId (H : Host D) (E : List (TenantEvent D)) : D := (E.getLast?.map (·.eventId)).getD H.zeros

@[simp] theorem lastId_snoc (H : Host D) (E : List (TenantEvent D)) (e : TenantEvent D) :
    lastId H (E ++ [e]) = e.eventId := by simp [lastId]

/-- The events of a type. -/
def ofType (E : List (TenantEvent D)) (y : Symbol) : List (TenantEvent D) := E.filter (·.eventType = y)

theorem ofType_snoc (E : List (TenantEvent D)) (e : TenantEvent D) (y : Symbol) :
    ofType (E ++ [e]) y = ofType E y ++ if e.eventType = y then [e] else [] := by
  rw [ofType, ofType, List.filter_append]
  by_cases h : e.eventType = y <;> simp [h]

variable [DecidableEq D] {H : Host D} {env : Env} {s s' : State D} {op : Op} {t y : Symbol}
  {E : List (TenantEvent D)}

/-! ## What was stored -/

/-- The event a step stores for `t`: what is under the id it returns. -/
def storedBy (H : Host D) (t : Symbol) (p : State D × (Env × Op)) : Option (TenantEvent D) :=
  match p.2.2 with
  | .logTenantEvent _ t' _ _ _ =>
    if t' = t then
      match (exec H p.2.2).run p.2.1 p.1 with
      | .ok (.id d, s') => s'.inst .tenantEventData (t, d)
      | _ => none
    else none
  | _ => none

/-- The events the calls of a trace stored for `t`, in order. -/
def storedEvents (H : Host D) (t : Symbol) (tr : List (State D × (Env × Op))) : List (TenantEvent D) :=
  tr.filterMap (storedBy H t)

theorem storedBy_entered {a : Address} {m : Bytes} {u : Option Symbol}
    (h : Steps (exec H) s (env, .logTenantEvent a t y m u) s') :
    ∃ c, Entered H env a t y m u s s' c ∧
      storedBy H t (s, (env, .logTenantEvent a t y m u)) =
        some (newEvent H env s a t y m u c.totalEvents) := by
  obtain ⟨r, h⟩ := h
  obtain ⟨c, he, rfl⟩ := entered_of_run h
  refine ⟨c, he, ?_⟩
  simp only [storedBy, if_true]
  rw [h]
  simp only [he.data, Function.update_self]

/-! ## The storage of a tenant -/

/-- The storage of `s` holds the events `E` of `t`. -/
structure TenantLog (H : Host D) (s : State D) (t : Symbol) (E : List (TenantEvent D)) : Prop where
  total : (s.inst .tenantConfig t).elim 0 (·.totalEvents) = E.length
  length_lt : E.length < 2 ^ 32
  index : ∀ (i : ℕ) (e : TenantEvent D), E[i]? = some e → e.index = i
  chained : ∀ (i : ℕ) (e : TenantEvent D), E[i]? = some e → e.prevHash = lastId H (E.take i)
  prev : (s.inst .tenantPrevHash t).getD H.zeros = lastId H E
  order : ∀ (i : ℕ) (e : TenantEvent D), E[i]? = some e → s.inst .tenantEventOrder (t, i) = some e.eventId
  /-- an event is there until a later one has its id -/
  data : ∀ pre e post, E = pre ++ e :: post → (∀ e' ∈ post, e'.eventId ≠ e.eventId) →
    s.inst .tenantEventData (t, e.eventId) = some e
  count : ∀ y, typeCount s t y = (ofType E y).length
  packed : ∀ y, packedType s t y = ((ofType E y).map (·.index)).flatMap u32ToBytes
  packed_lt : ∀ y, (packedType s t y).length < 2 ^ 32

theorem tenantLog_empty : TenantLog H (Ledger.empty : State D) t [] where
  total := rfl
  length_lt := by simp
  index := by simp
  chained := by simp
  prev := rfl
  order := by simp
  data := by simp
  count _ := rfl
  packed _ := rfl
  packed_lt _ := by simp [packedType, Ledger.empty, Store.empty]

/-- What the log of `t` is stored in. -/
def logKeys : List TenantDataKey :=
  [.tenantEventOrder, .tenantEventData, .tenantTypeCount, .tenantTypeIndices]

namespace TenantLog

theorem congr (h : TenantLog H s t E)
    (htotal : (s'.inst .tenantConfig t).elim 0 (·.totalEvents) =
      (s.inst .tenantConfig t).elim 0 (·.totalEvents))
    (hprev : (s'.inst .tenantPrevHash t).getD H.zeros = (s.inst .tenantPrevHash t).getD H.zeros)
    (hkeys : ∀ f ∈ logKeys, ∀ k, tenantOf (D := D) f k = some t → s'.inst f k = s.inst f k) :
    TenantLog H s' t E where
  total := htotal.trans h.total
  length_lt := h.length_lt
  index := h.index
  chained := h.chained
  prev := hprev.trans h.prev
  order i e hi := (hkeys .tenantEventOrder (by simp [logKeys]) (t, i) rfl).trans (h.order i e hi)
  data pre e post he hp :=
    (hkeys .tenantEventData (by simp [logKeys]) (t, e.eventId) rfl).trans (h.data pre e post he hp)
  count y := by
    rw [typeCount, hkeys .tenantTypeCount (by simp [logKeys]) (t, y) rfl]
    exact h.count y
  packed y := by
    rw [packedType, hkeys .tenantTypeIndices (by simp [logKeys]) (t, y) rfl]
    exact h.packed y
  packed_lt y := by
    rw [packedType, hkeys .tenantTypeIndices (by simp [logKeys]) (t, y) rfl]
    exact h.packed_lt y

/-- One more event. -/
theorem entered {a : Address} {m : Bytes} {u : Option Symbol} {c : TenantConfig}
    (h : TenantLog H s t E) (he : Entered H env a t y m u s s' c) :
    TenantLog H s' t (E ++ [newEvent H env s a t y m u c.totalEvents]) := by
  have hlen : c.totalEvents = E.length := by
    have := h.total
    rwa [he.admits.config] at this
  generalize hnew : newEvent H env s a t y m u c.totalEvents = e
  have hget : ∀ i e', (E ++ [e])[i]? = some e' →
      (E[i]? = some e' ∧ i < E.length) ∨ (i = E.length ∧ e' = e) := by
    intro i e' hi
    rcases Nat.lt_trichotomy i E.length with hlt | rfl | hgt
    · exact .inl ⟨by rwa [List.getElem?_append_left hlt] at hi, hlt⟩
    · exact .inr ⟨rfl, by simpa using hi.symm⟩
    · rw [List.getElem?_eq_none (by simp; omega)] at hi; cases hi
  have htype : e.eventType = y := by rw [← hnew]; rfl
  have hindex : e.index = E.length := by rw [← hnew]; exact hlen
  refine ⟨?_, ?_, ?_, ?_, ?_, ?_, ?_, ?_, ?_, ?_⟩
  · rw [he.config, Function.update_self, List.length_append, List.length_singleton, ← hlen]
    rfl
  · have := he.total_lt
    rw [List.length_append, List.length_singleton, ← hlen]
    exact this
  · intro i e' hi
    rcases hget i e' hi with ⟨hi, -⟩ | ⟨rfl, rfl⟩
    · exact h.index i e' hi
    · exact hindex
  · intro i e' hi
    rcases hget i e' hi with ⟨hi, hlt⟩ | ⟨rfl, rfl⟩
    · rw [List.take_append_of_le_length hlt.le]
      exact h.chained i e' hi
    · rw [List.take_left, ← h.prev, ← hnew]
      rfl
  · rw [he.prev, Function.update_self, lastId_snoc, hnew]
    rfl
  · intro i e' hi
    rw [he.order, hnew, hlen]
    rcases hget i e' hi with ⟨hi, hlt⟩ | ⟨rfl, rfl⟩
    · rw [Function.update_of_ne (by simp; omega)]
      exact h.order i e' hi
    · rw [Function.update_self]
  · intro pre e' post hE hpost
    rw [he.data, hnew]
    rcases List.eq_nil_or_concat post with rfl | ⟨post, e'', rfl⟩
    · obtain ⟨-, hee⟩ := List.append_inj' hE rfl
      obtain rfl : e = e' := by simpa using hee
      rw [Function.update_self]
    · have hE' : E ++ [e] = (pre ++ e' :: post) ++ [e''] := by simpa using hE
      obtain ⟨hinit, hee⟩ := List.append_inj' hE' rfl
      obtain rfl : e = e'' := by simpa using hee
      have hne : e.eventId ≠ e'.eventId := hpost e (by simp)
      rw [Function.update_of_ne (by simpa using hne.symm)]
      exact h.data pre e' post hinit fun d hd => hpost d (by simp [hd])
  · intro z
    rw [typeCount, he.count, ofType_snoc, htype]
    by_cases hz : y = z
    · subst hz
      rw [Function.update_self, if_pos rfl, List.length_append, ← h.count]
      rfl
    · rw [Function.update_of_ne (by simpa using Ne.symm hz), if_neg hz, List.append_nil]
      exact h.count z
  · intro z
    rw [packedType, he.indices, ofType_snoc, htype]
    by_cases hz : y = z
    · subst hz
      rw [Function.update_self, if_pos rfl, List.map_append, List.flatMap_append, ← h.packed,
        List.map_singleton, List.flatMap_singleton, hindex, ← hlen]
      rfl
    · rw [Function.update_of_ne (by simpa using Ne.symm hz), if_neg hz, List.append_nil]
      exact h.packed z
  · intro z
    rw [packedType, he.indices]
    by_cases hz : y = z
    · subst hz
      rw [Function.update_self]
      have := he.packed_lt
      simpa [u32ToBytes] using this
    · rw [Function.update_of_ne (by simpa using Ne.symm hz)]
      exact h.packed_lt z

end TenantLog

/-! ## Runs -/

/-- An operation of `t` that logs nothing. -/
theorem TenantLog.revised (h : TenantLog H s op.tenant E) (hs : Steps (exec H) s (env, op) s')
    (hop : ∀ f ∈ logKeys, f ∉ op.writes) : TenantLog H s' op.tenant E := by
  obtain ⟨r, hr⟩ := id hs
  have hframe := (exec_writes H op).of_run hr
  have hrev := step_revises hs
  refine h.congr ?_ ?_ fun f hf k _ => by rw [hframe.inst (hop f hf)]
  · generalize s.inst .tenantConfig op.tenant = o at hrev
    generalize s'.inst .tenantConfig op.tenant = o' at hrev
    cases hrev with
    | logged => exact absurd (by simp) (hop .tenantEventData (by simp [logKeys]))
    | _ => rfl
  · cases op with
    | initializeTenant a t n k r d =>
      -- there was no configuration, and so there are no events
      have htotal := h.total
      generalize s.inst .tenantConfig (Op.initializeTenant a t n k r d).tenant = o at hrev htotal
      generalize s'.inst .tenantConfig (Op.initializeTenant a t n k r d).tenant = o' at hrev
      cases hrev
      obtain rfl : E = [] := List.length_eq_zero_iff.1 htotal.symm
      rw [h.prev]
      exact congrArg (·.getD H.zeros) (initialized_prev hs)
    | logTenantEvent => exact absurd (by simp) (hop .tenantEventData (by simp [logKeys]))
    | _ => rw [hframe.inst (notMem_of_eval rfl)]

theorem TenantLog.other (h : TenantLog H s t E) (hs : s.SameFor tenantOf t s') : TenantLog H s' t E :=
  h.congr (by rw [hs .tenantConfig t rfl]) (by rw [hs .tenantPrevHash t rfl])
    fun f _ k hk => (hs f k hk).symm

/-- **Every run keeps the log of every tenant.** -/
theorem tenantLog_of_run {tr : List (State D × (Env × Op))} (h : Run (Steps (exec H)) Ledger.empty tr s)
    (t : Symbol) : TenantLog H s t (storedEvents H t tr) := by
  induction h with
  | init => exact tenantLog_empty
  | @snoc tr s s' c _ hs ih =>
    obtain ⟨env, op⟩ := c
    rw [storedEvents, List.filterMap_append]
    by_cases ht : t = op.tenant
    · subst ht
      by_cases hop : ∀ f ∈ logKeys, f ∉ op.writes
      · have hnone : storedBy H op.tenant (s, env, op) = none := by
          cases op with
          | logTenantEvent => exact absurd (by simp) (hop .tenantEventData (by simp [logKeys]))
          | _ => rfl
        rw [List.filterMap_cons_none hnone, List.filterMap_nil, List.append_nil]
        exact ih.revised hs hop
      · cases op with
        | logTenantEvent a t y m u =>
          obtain ⟨c, he, hstored⟩ := storedBy_entered hs
          simp only [Op.tenant] at ih ⊢
          rw [List.filterMap_cons_some hstored, List.filterMap_nil]
          exact ih.entered he
        | _ => simp [logKeys] at hop
    · have hnone : storedBy H t (s, env, op) = none := by
        cases op <;> first | rfl | exact if_neg (Ne.symm ht)
      rw [List.filterMap_cons_none hnone, List.filterMap_nil, List.append_nil]
      exact ih.other (step_other hs ht)

/-! ## Reading the log -/

/-- The tenant exists and is not deleted. -/
def Live (s : State D) (t : Symbol) : Prop := ∃ c, s.inst .tenantConfig t = some c ∧ c.status ≠ .deleted

/-- The queries on `t` return the events `E`, which form a chain. -/
structure LogExact (H : Host D) (s : State D) (t : Symbol) (E : List (TenantEvent D)) : Prop where
  total : ∀ env, (tenantTotalEvents t : Fn D ℕ).run env s = .ok (E.length, s)
  byIndex : ∀ (i : ℕ) (e : TenantEvent D), E[i]? = some e → e.index = i ∧
    ∀ env, (getTenantEventByIndex t i : Fn D (TenantEvent D)).run env s = .ok (e, s)
  genesis : ∀ e : TenantEvent D, E[0]? = some e → e.prevHash = H.zeros
  linked : ∀ (i : ℕ) (e e' : TenantEvent D), E[i]? = some e → E[i + 1]? = some e' →
    e'.prevHash = e.eventId
  distinct : (E.map (·.eventId)).Nodup
  countByType : ∀ y env,
    (tenantEventCountByType t y : Fn D ℕ).run env s = .ok ((ofType E y).length, s)
  byType : ∀ y (k : ℕ) (e : TenantEvent D), (ofType E y)[k]? = some e →
    ∀ env, (getTenantEventByType t y k : Fn D (TenantEvent D)).run env s = .ok (e, s)

/-- The `k`-th packed position. -/
theorem packedPosition_run {b : Bytes} {k : ℕ} (hk : k * 4 + 4 ≤ b.length) (hb : b.length < 2 ^ 32) :
    ∃ w, (words b)[k]? = some w ∧ (packedPosition b k : Fn D ℕ).run env s = .ok (w, s) := by
  obtain ⟨b0, b1, b2, b3, h0, h1, h2, h3, hw⟩ := words_get b k hk
  refine ⟨_, hw, ?_⟩
  have hmul : k * 4 < 2 ^ 32 := by omega
  have hadd : ∀ j ≤ 3, (addChecked 32 (k * 4) j : Fn D ℕ).run env s = .ok (k * 4 + j, s) := by
    intro j hj
    exact run_addChecked env s (by omega)
  rw [packedPosition, run_bind_ok _ _ (run_mulChecked _ _ hmul), run_bind_ok _ _ (hadd 1 (by omega)),
    run_bind_ok _ _ (hadd 2 (by omega)), run_bind_ok _ _ (hadd 3 (by omega)), h0, h1, h2, h3]
  rfl

section
variable {c : TenantConfig}

theorem readableConfig_run (hc : s.inst .tenantConfig t = some c) (hst : c.status ≠ .deleted)
    (env : Env) :
    (readableConfig t : Fn D TenantConfig).run env s = .ok (c, s) := by
  have hconfig : (tenantConfig t : Fn D TenantConfig).run env s = .ok (c, s) := by
    rw [tenantConfig, run_bind_ok _ _ (run_load ..), hc]
    rfl
  rw [readableConfig, run_bind_ok _ _ hconfig, run_bind_ok _ _ (by rw [run_rejectIf, if_neg hst])]
  rfl

theorem tenantEventAt_run {i : ℕ} {d : D} {e : TenantEvent D}
    (ho : s.inst .tenantEventOrder (t, i) = some d) (hd : s.inst .tenantEventData (t, d) = some e)
    (env : Env) :
    (tenantEventAt t i : Fn D (TenantEvent D)).run env s = .ok (e, s) := by
  have horder : (unwrapOr (s.inst .tenantEventOrder (t, i)) .tenantEventNotFound : Fn D D).run env s =
      .ok (d, s) := by rw [ho]; rfl
  rw [tenantEventAt, run_bind_ok _ _ (run_load ..), run_bind_ok _ _ horder,
    run_bind_ok _ _ (run_load ..), hd]
  rfl

end

namespace TenantLog

/-- Where no id is repeated, every event is there. -/
theorem get_data (h : TenantLog H s t E) (hn : (E.map (·.eventId)).Nodup) {e : TenantEvent D}
    (he : e ∈ E) :
    s.inst .tenantEventData (t, e.eventId) = some e := by
  obtain ⟨pre, post, hE⟩ := List.append_of_mem he
  refine h.data pre e post hE fun e' he' heq => ?_
  rw [hE, List.map_append, List.map_cons, List.nodup_append, List.nodup_cons] at hn
  exact hn.2.1.1 (List.mem_map.2 ⟨e', he', heq⟩)

theorem eventAt_run (h : TenantLog H s t E) (hn : (E.map (·.eventId)).Nodup) {i : ℕ} {e : TenantEvent D}
    (hi : E[i]? = some e) (env : Env) : (tenantEventAt t i : Fn D (TenantEvent D)).run env s = .ok (e, s) :=
  tenantEventAt_run (h.order i e hi) (h.get_data hn (List.mem_of_getElem? hi)) env

/-- The packed positions of a type are those of its events. -/
theorem words_packed (h : TenantLog H s t E) (y : Symbol) :
    words (packedType s t y) = (ofType E y).map (·.index) := by
  rw [h.packed]
  refine words_flatMap_u32ToBytes fun i hi => ?_
  obtain ⟨e, he, rfl⟩ := List.mem_map.1 hi
  obtain ⟨j, hj⟩ := List.mem_iff_getElem?.1 (List.mem_of_mem_filter he)
  have hlt := (List.getElem?_eq_some_iff.1 hj).1
  have := h.length_lt
  rw [h.index j e hj]
  omega

theorem byType_run (h : TenantLog H s t E) (hlive : Live s t) (hn : (E.map (·.eventId)).Nodup) {k : ℕ}
    {e : TenantEvent D} (hk : (ofType E y)[k]? = some e) (env : Env) :
    (getTenantEventByType t y k : Fn D (TenantEvent D)).run env s = .ok (e, s) := by
  obtain ⟨c, hc, hst⟩ := hlive
  have hlt := (List.getElem?_eq_some_iff.1 hk).1
  have hlen : (packedType s t y).length = 4 * (ofType E y).length := by
    rw [h.packed, length_flatMap_u32ToBytes, List.length_map]
  have hcount : (getTenantTypeCount t y : Fn D ℕ).run env s = .ok ((ofType E y).length, s) := by
    rw [← h.count]; rfl
  have hkey : s.inst .tenantTypeIndices (t, y) = some (packedType s t y) := by
    rcases hx : s.inst .tenantTypeIndices (t, y) with _ | b
    · rw [packedType, hx] at hlen
      simp only [Option.getD_none, List.length_nil] at hlen
      omega
    · rw [packedType, hx]; rfl
  obtain ⟨w, hw, hpos⟩ : ∃ w, (words (packedType s t y))[k]? = some w ∧
      (packedPosition (packedType s t y) k : Fn D ℕ).run env s = .ok (w, s) :=
    packedPosition_run (by omega) (h.packed_lt y)
  obtain ⟨j, hj⟩ := List.mem_iff_getElem?.1 (List.mem_of_mem_filter (List.mem_of_getElem? hk))
  obtain rfl : w = j := by
    rw [h.words_packed, List.getElem?_map, hk] at hw
    rw [← h.index j e hj]
    exact (Option.some.inj hw).symm
  have hindices : (unwrapOr (some (packedType s t y)) .tenantEventNotFound : Fn D Bytes).run env s =
      .ok (packedType s t y, s) := rfl
  rw [getTenantEventByType, run_bind_ok _ _ (readableConfig_run hc hst env), run_bind_ok _ _ hcount,
    run_bind_ok _ _ (by rw [run_rejectIf, if_neg (by omega)]), run_bind_ok _ _ (run_load ..), hkey,
    run_bind_ok _ _ hindices, run_bind_ok _ _ hpos]
  exact h.eventAt_run hn hj env

/-- **The log is exact** as long as no id is repeated. -/
theorem exact_iff (h : TenantLog H s t E) (hlive : Live s t) :
    LogExact H s t E ↔ (E.map (·.eventId)).Nodup := by
  refine ⟨fun hx => hx.distinct, fun hn => ?_⟩
  obtain ⟨c, hc, hst⟩ := id hlive
  have htotal : c.totalEvents = E.length := by
    have := h.total
    rwa [hc] at this
  constructor
  · intro env
    rw [tenantTotalEvents, run_bind_ok _ _ (readableConfig_run hc hst env), htotal]
    rfl
  · intro i e hi
    have hlt := (List.getElem?_eq_some_iff.1 hi).1
    refine ⟨h.index i e hi, fun env => ?_⟩
    rw [getTenantEventByIndex, run_bind_ok _ _ (readableConfig_run hc hst env),
      run_bind_ok _ _ (by rw [run_rejectIf, if_neg (by omega)])]
    exact h.eventAt_run hn hi env
  · intro e he
    rw [h.chained 0 e he]
    rfl
  · intro i e e' he he'
    obtain ⟨hlt, rfl⟩ := List.getElem?_eq_some_iff.1 he
    rw [h.chained (i + 1) e' he', List.take_succ_eq_append_getElem hlt, lastId_snoc]
  · exact hn
  · intro z env
    rw [tenantEventCountByType, run_bind_ok _ _ (readableConfig_run hc hst env), ← h.count]
    rfl
  · intro z k e hk env
    exact h.byType_run hlive hn hk env

end TenantLog

/-! ## Ids -/

/-- What the id of an event is computed from. -/
structure EventInput where
  tenantPayload : UInt64
  typePayload : UInt64
  submitter : Address
  metadata : Bytes
  timestamp : UInt64
  deriving DecidableEq

def EventInput.bytes (i : EventInput) : Bytes :=
  u64ToBytes i.tenantPayload.toNat ++ u64ToBytes i.typePayload.toNat ++ i.submitter.strkey ++ i.metadata ++
    u64ToBytes i.timestamp.toNat

theorem EventInput.bytes_injective : Function.Injective EventInput.bytes := by
  rintro ⟨p, q, ⟨a, ha⟩, m, n⟩ ⟨p', q', ⟨a', ha'⟩, m', n'⟩ h
  simp only [EventInput.bytes] at h
  obtain ⟨h, hn⟩ := List.append_inj' h rfl
  obtain ⟨h, hm⟩ := List.append_inj h (by simp [u64ToBytes, ha, ha'])
  obtain ⟨h, hk⟩ := List.append_inj h (by simp [u64ToBytes])
  obtain ⟨hp, hq⟩ := List.append_inj h (by simp [u64ToBytes])
  obtain rfl := u64ToBytes_toNat_injective hp
  obtain rfl := u64ToBytes_toNat_injective hq
  obtain rfl := u64ToBytes_toNat_injective hn
  subst hk hm
  rfl

/-- What a call on `t` computes an id from. -/
def inputOf (t : Symbol) (c : Env × Op) : Option EventInput :=
  match c.2 with
  | .logTenantEvent a t' y m _ =>
    if t' = t then some ⟨c.1.payload t, c.1.payload y, a, m, UInt64.ofNat c.1.timestamp⟩ else none
  | _ => none

/-- What the calls of a trace computed the ids of `t` from, in order. -/
def loggedInputs (t : Symbol) (tr : List (State D × (Env × Op))) : List EventInput :=
  tr.filterMap fun p => inputOf t p.2

theorem storedBy_id (h : Steps (exec H) s (env, op) s') (t : Symbol) :
    (storedBy H t (s, env, op)).map (·.eventId) = (inputOf t (env, op)).map fun i => H.sha256 i.bytes := by
  cases op with
  | logTenantEvent a t' y m u =>
    by_cases ht : t' = t
    · subst ht
      obtain ⟨c, -, hstored⟩ := storedBy_entered h
      rw [hstored]
      simp only [inputOf, if_true, Option.map_some, newEvent, computeTenantEventId, tenantEventPayload,
        EventInput.bytes, u64ToBytes_ofNat]
    · simp only [storedBy, inputOf, if_neg ht]
      rfl
  | _ => rfl

theorem storedEvents_ids {tr : List (State D × (Env × Op))} {s₀ : State D}
    (h : Run (Steps (exec H)) s₀ tr s)
    (t : Symbol) :
    (storedEvents H t tr).map (·.eventId) = (loggedInputs t tr).map fun i => H.sha256 i.bytes := by
  rw [storedEvents, loggedInputs, List.map_filterMap, List.map_filterMap]
  refine List.filterMap_congr fun p hp => ?_
  obtain ⟨s₁, env, op⟩ := p
  obtain ⟨s₂, hs⟩ := h.step_of_mem hp
  exact storedBy_id hs t

/-- **The log of a tenant reads back what its calls have stored** if and only if no two of
    them agree in the payloads of tenant and type, the submitter, the metadata and the
    ledger time. -/
theorem history_tenant_log (hinj : Function.Injective H.sha256) {tr : List (State D × (Env × Op))}
    (h : Run (Steps (exec H)) Ledger.empty tr s) (hlive : Live s t) :
    LogExact H s t (storedEvents H t tr) ↔ (loggedInputs t tr).Nodup := by
  rw [(tenantLog_of_run h t).exact_iff hlive, storedEvents_ids h t]
  exact List.nodup_map_iff (hinj.comp EventInput.bytes_injective)

/-- One submitter logs the same content at two times, and another type in between. -/
def repeatedScript : List (Env × Op) :=
  [(openEnv 10, .initializeTenant (account 65) "a" 0 0 0 []),
    (openEnv 11, .logTenantEvent (account 66) "a" "login" [1] none),
    (openEnv 11, .logTenantEvent (account 66) "a" "logout" [1] none),
    (openEnv 12, .logTenantEvent (account 66) "a" "login" [1] none)]

theorem history_tenant_log_repeatedScript :
    ∃ tr s, Run (Steps (exec plainHost)) Ledger.empty tr s ∧
      LogExact plainHost s "a" (storedEvents plainHost "a" tr) := by
  obtain ⟨s, hs⟩ : ∃ s, play (exec plainHost) Ledger.empty repeatedScript = some s :=
    Option.isSome_iff_exists.1 (by decide)
  have hstatus : (play (exec plainHost) Ledger.empty repeatedScript).map
      (fun s => (s.inst .tenantConfig "a").map (·.status)) = some (some .active) := by decide
  have hnodup : (loggedInputs "a" (traceOf (exec plainHost) Ledger.empty repeatedScript)).Nodup := by
    decide
  rw [hs] at hstatus
  simp only [Option.map_some, Option.some.injEq, Option.map_eq_some_iff] at hstatus
  obtain ⟨c, hc, hst⟩ := hstatus
  have hlive : Live s "a" := ⟨c, hc, by rw [hst]; exact nofun⟩
  exact ⟨_, s, run_of_play hs, (history_tenant_log Function.injective_id (run_of_play hs) hlive).2 hnodup⟩

/-- The same content twice at one time. -/
def doubledScript : List (Env × Op) :=
  [(openEnv 10, .initializeTenant (account 65) "a" 0 0 0 []),
    (openEnv 11, .logTenantEvent (account 66) "a" "login" [1] none),
    (openEnv 11, .logTenantEvent (account 66) "a" "login" [1] none)]

/-- The first event has been overwritten: it is read back as the second one. -/
theorem first_event_overwritten :
    ∃ tr s, Run (Steps (exec plainHost)) Ledger.empty tr s ∧ Live s "a" ∧
      ((getTenantEventByIndex "a" 0 : Fn Bytes (TenantEvent Bytes)).run (openEnv 12) s).toOption.map
        (·.1.index) = some 1 ∧
      ¬LogExact plainHost s "a" (storedEvents plainHost "a" tr) := by
  obtain ⟨s, hs⟩ : ∃ s, play (exec plainHost) Ledger.empty doubledScript = some s :=
    Option.isSome_iff_exists.1 (by decide)
  let first (s : State Bytes) : Option ℕ :=
    ((getTenantEventByIndex "a" 0 : Fn Bytes (TenantEvent Bytes)).run (openEnv 12) s).toOption.map
      (·.1.index)
  have hview : (play (exec plainHost) Ledger.empty doubledScript).map
      (fun s => ((s.inst .tenantConfig "a").map (·.status), first s)) = some (some .active, some 1) := by
    decide
  have hdup : ¬((storedEvents plainHost "a" (traceOf (exec plainHost) Ledger.empty doubledScript)).map
      (·.eventId)).Nodup := by decide
  rw [hs] at hview
  simp only [Option.map_some, Option.some.injEq, Prod.mk.injEq, Option.map_eq_some_iff] at hview
  obtain ⟨⟨c, hc, hst⟩, hfirst⟩ := hview
  exact ⟨_, s, run_of_play hs, ⟨c, hc, by rw [hst]; exact nofun⟩, hfirst, fun h => hdup h.distinct⟩

end MultiTenantLedger
