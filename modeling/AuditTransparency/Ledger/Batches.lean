/-
  AuditLedger — batches and single calls.

  `log_events` stores a batch without calling the single path.  Both lay the same
  entries (`lay`), but only the single path charges the rate limit, records the content
  in the dedup maps and keeps a persistent copy, and the two do not count the types
  in the same way.

  * `Logged`: what one forced call of the single path leaves, key by key;
  * `Singled`: what a list of them leaves;
  * `batch_agrees_iff`: a batch and the single calls for its items leave the same
    storage exactly when `Interchangeable` holds of the state before.
-/
import AuditTransparency.Ledger.Copies
import AuditTransparency.Ledger.Limits

namespace AuditLedger

open Soroban
open Soroban.Call hiding hasPers publish

variable {D : Type} [DecidableEq D] {H : Host D} {env : Env} {s s' : State D} {r : Ret D}

/-! ## The entries -/

/-- An item of a batch: submitter, type and metadata. -/
abbrev Item := Address × Symbol × Bytes

/-- The item as the arguments of the single path. -/
def forced (item : Item) : Submission := ⟨item.1, item.2.1, item.2.2, none, none, true⟩

/-- The single call for an item, in an invocation of its own. -/
def single (c : Env × Item) : Env × Op D := (c.1, .logEvent c.2.1 c.2.2.1 c.2.2.2 none none true)

/-- The entries for the calls, from position `i` on. -/
def chainOf (H : Host D) (version : ℕ) : List (Env × Item) → ℕ → D → List (Entry D)
  | [], _, _ => []
  | c :: calls, i, prev =>
    let q := newEntry H c.1 version (forced c.2) i prev
    q :: chainOf H version calls (i + 1) q.2.eventHash

/-- The log with more entries. -/
def layAll (s : State D) (M : List (Entry D)) : State D := M.foldl lay s

theorem lay_frame (s : State D) (q : Entry D) : s.Frame layKeys (lay s q) := by
  have hput : s.Frame layKeys (putEvent s q.1 q.2) :=
    (((Ledger.frame_put (by simp)).trans (Ledger.frame_put (by simp))).trans
      (Ledger.frame_put (by simp))).trans (Ledger.frame_put (by simp))
  unfold lay
  split_ifs
  · exact hput
  · exact ((hput.trans (Ledger.frame_put (by simp))).trans (Ledger.frame_put (by simp))).trans
      (Ledger.frame_put (by simp))

theorem layAll_congr {s₁ : State D} (M : List (Entry D))
    (h : ∀ f ∈ DataKey.lowCostMode :: layKeys, s₁.inst f = s.inst f) :
    ∀ f ∈ layKeys, (layAll s₁ M).inst f = (layAll s M).inst f := by
  induction M generalizing s s₁ with
  | nil => exact fun f hf => h f (List.mem_cons_of_mem _ hf)
  | cons q M ih =>
    refine ih (List.forall_mem_cons.2 ⟨?_, lay_congr h⟩)
    rw [(lay_frame s₁ q).inst (notMem_of_eval rfl), (lay_frame s q).inst (notMem_of_eval rfl)]
    exact h _ (by simp)

/-- What a step has laid, and then the rest. -/
theorem layAll_cons {s₁ : State D} {q : Entry D} (M : List (Entry D))
    (hlow : s₁.inst .lowCostMode = s.inst .lowCostMode)
    (h : ∀ f ∈ layKeys, s₁.inst f = (lay s q).inst f) :
    ∀ f ∈ layKeys, (layAll s₁ M).inst f = (layAll s (q :: M)).inst f := by
  refine layAll_congr (s := lay s q) M (List.forall_mem_cons.2 ⟨?_, h⟩)
  rw [hlow, (lay_frame s q).inst (notMem_of_eval rfl)]

/-- The number of events of the type in its index, and one more without a cap. -/
def indexedCount (s : State D) (t : Symbol) : ℕ :=
  (packedType s t).length / 4 + if (capOf s t).isSome then 0 else 1

theorem nextCount_eq (s : State D) (t : Symbol) : nextCount s t = indexedCount s t + 1 := by
  unfold nextCount indexedCount
  rcases capOf s t with _ | c <;> rfl

/-- The cached count of a type after `n` events of it, counted from `base`. -/
def countAfter (base : ℕ) (s : State D) (t : Symbol) (n : ℕ) : Option ℕ :=
  if lowCost s = true ∨ n = 0 then s.inst .eventTypeCount t else some (base + n)

/-- One event of the type `y`, and then the rest. -/
theorem countAfter_cons {s₁ : State D} {base base₁ : Symbol → ℕ} {y : Symbol}
    (hlow : lowCost s₁ = lowCost s)
    (hcount : s₁.inst .eventTypeCount = if lowCost s then s.inst .eventTypeCount
      else Function.update (s.inst .eventTypeCount) y (some (base y + 1)))
    (hbase : lowCost s = false → ∀ t, base₁ t = base t + if y = t then 1 else 0) (t : Symbol) (n : ℕ) :
    countAfter (base₁ t) s₁ t n = countAfter (base t) s t (n + if y = t then 1 else 0) := by
  unfold countAfter
  rw [hlow, hcount]
  rcases hl : lowCost s with _ | _
  · rw [hbase hl t]
    by_cases hy : y = t
    · subst hy
      rcases n with _ | n
      · simp
      · simp; omega
    · simp [hy, Function.update_of_ne (Ne.symm hy)]
  · simp

/-! ## A batch -/

theorem post_appendBatchItem_laid {acc : BatchTail D} {item : Item} {q : Entry D}
    (hq : newEntry H env (versionOf s) (forced item) acc.currentTotal acc.prevHash = q) :
    Post (appendBatchItem H acc item)
      (fun acc' s' => acc'.currentTotal = acc.currentTotal + 1 ∧ acc'.prevHash = q.2.eventHash ∧
        (∀ f ∈ layKeys, s'.inst f = (lay s q).inst f) ∧ s'.inst .eventTypeCount =
          if lowCost s then s.inst .eventTypeCount
          else Function.update (s.inst .eventTypeCount) item.2.1 (some (cachedCount s item.2.1 + 1)))
      env s := by
  simp only [appendBatchItem, post_bind, post_pure]
  refine (post_of_run (buildEvent_run (forced item) _ _)).2 ?_
  rw [hq]
  have hty : q.2.eventType = item.2.1 := by rw [← hq]; rfl
  have hsub : q.2.submitter = item.1 := by rw [← hq]; rfl
  have hindex : q.2.index = acc.currentTotal := by rw [← hq]; rfl
  have hcount : cachedCount (putEvent s q.1 q.2) item.2.1 = cachedCount s item.2.1 := by
    simp [cachedCount, putEvent]
  refine post_placeEvent.2 (post_bind.1 fun _ s₂ hrun₂ => ?_)
  have hindexed : (∀ f ∈ layKeys, s₂.inst f = (lay s q).inst f) ∧ s₂.inst .eventTypeCount =
      if lowCost s then s.inst .eventTypeCount
      else Function.update (s.inst .eventTypeCount) q.2.eventType
        (some (cachedCount s item.2.1 + 1)) := by
    refine (post_indexed_lay (fun _ _ => rfl) fun R hR => post_indexBatch fun _ _ => ?_).of_run hrun₂
    rw [hty, hsub, hindex] at hR
    rwa [hcount]
  intro _ s₃ hrun₃
  have hf₃ : s₂.Frame [] s₃ := Writes.of_run (L := layout D) inferInstance hrun₃
  refine ⟨trivial, rfl, fun f hf => ?_, ?_⟩
  · rw [hf₃.inst (notMem_of_eval rfl)]
    exact hindexed.1 f hf
  · rw [hf₃.inst (notMem_of_eval rfl), hindexed.2, hty]

/-- **The storing loop lays the entries of its items.** -/
theorem post_storeBatch_laid (items : List Item) (acc : BatchTail D) :
    Post (items.foldlM (appendBatchItem H) acc)
      (fun _ s' => (∀ f ∈ layKeys, s'.inst f = (layAll s (chainOf H (versionOf s)
          (items.map (env, ·)) acc.currentTotal acc.prevHash)).inst f) ∧
        ∀ t, s'.inst .eventTypeCount t = countAfter (cachedCount s t) s t (items.countP (·.2.1 = t)))
      env s := by
  induction items generalizing s acc with
  | nil =>
    refine post_pure.2 ⟨fun _ _ => rfl, fun t => ?_⟩
    simp [countAfter]
  | cons item items ih =>
    rw [List.foldlM_cons, post_bind]
    intro acc₁ s₁ hrun₁
    obtain ⟨htotal, hprev, hlaid, hcount⟩ := (post_appendBatchItem_laid rfl).of_run hrun₁
    have hf : s.Frame itemWrites s₁ := Writes.of_run (L := layout D) inferInstance hrun₁
    have hlow : lowCost s₁ = lowCost s := by rw [lowCost, hf.inst (notMem_of_eval rfl), lowCost]
    have hversion : versionOf s₁ = versionOf s := by rw [versionOf, hf.inst (notMem_of_eval rfl), versionOf]
    refine (ih acc₁).mono ?_
    rintro _ s' ⟨hlaid', hcount'⟩
    constructor
    · intro f hf'
      rw [hlaid' f hf', hversion, htotal, hprev]
      exact layAll_cons _ (hf.inst (notMem_of_eval rfl)) hlaid f hf'
    · intro t
      rw [hcount', List.countP_cons]
      have hcached : lowCost s = false → ∀ y, cachedCount s₁ y =
          cachedCount s y + if item.2.1 = y then 1 else 0 := by
        intro hl y
        rw [cachedCount, hcount, if_neg (by simp [hl])]
        by_cases hy : item.2.1 = y
        · subst hy; simp
        · simp [hy, Function.update_of_ne (Ne.symm hy), cachedCount]
      simpa using countAfter_cons hlow hcount hcached t (items.countP (·.2.1 = t))

theorem post_logEvents_laid {L : List (Entry D)} (h : LogInv H s L) {items : List Item} :
    Post (logEvents H items)
      (fun _ s' => (∀ f ∈ layKeys, s'.inst f = (layAll s (chainOf H (versionOf s)
          (items.map (env, ·)) L.length (prevHashAt H s L.length))).inst f) ∧
        ∀ t, s'.inst .eventTypeCount t = countAfter (cachedCount s t) s t (items.countP (·.2.1 = t)))
      env s := by
  obtain ⟨rs, hrs, hn⟩ := h.counted.runtime
  unfold logEvents
  refine post_bind_reads fun _ _ => post_bind_reads fun rs' hrs' => ?_
  obtain rfl : rs = rs' := by
    simp only [readRuntimeStateBatch, run_bind, run_load, hrs, onSome, Except.bind, run_pure,
      Except.ok.injEq, Prod.mk.injEq] at hrs'
    exact hrs'.1
  rw [hn]
  refine post_bind_reads fun _ _ => post_bind_reads fun _ _ => ?_
  refine post_bind_reads fun _ _ => post_bind_reads fun prev hprev => ?_
  rw [post_prevLink.of_run hprev, post_bind]
  refine (post_storeBatch_laid items _).mono ?_
  rintro acc s₁ ⟨hlaid, hcount⟩
  simp only [post_bind, post_store, post_pure]
  refine post_syncTotalEvents.mono fun _ s₂ hs₂ => ?_
  have hf : s₁.Frame [DataKey.config, DataKey.runtimeState] s₂ :=
    (Ledger.frame_put (by simp)).trans (hs₂.1.mono (by simp))
  constructor
  · intro f hf'
    rw [hf.inst_eq (apart_of_eval rfl) f hf']
    exact hlaid f hf'
  · intro t
    rw [hf.inst (notMem_of_eval rfl)]
    exact hcount t

/-- What a batch leaves, key by key. -/
structure BatchLaid (H : Host D) (env : Env) (items : List Item) (s : State D) (n : ℕ) (s' : State D) :
    Prop where
  laid : ∀ f ∈ layKeys, s'.inst f = (layAll s (chainOf H (versionOf s) (items.map (env, ·)) n
    (prevHashAt H s n))).inst f
  typeCount : ∀ t, s'.inst .eventTypeCount t =
    countAfter (cachedCount s t) s t (items.countP (·.2.1 = t))
  counters : ∃ rs, s.inst .runtimeState () = some rs ∧
    s'.inst .config () = some ⟨rs.globalMaxLogs, n + items.length⟩ ∧
    s'.inst .runtimeState () = some { rs with totalEvents := n + items.length }
  persistent : s'.persistent = s.persistent
  temporary : s'.temporary = s.temporary
  frame : s.Frame batchWrites s'

theorem step_batchLaid (hinj : Function.Injective H.sha256) {L : List (Entry D)} (h : LogInv H s L)
    {items : List Item} (hs : Step H env (.logEvents items) s r s') :
    BatchLaid H env items s L.length s' := by
  obtain ⟨out, hrun, -⟩ := of_run_map _ _ hs
  obtain ⟨hlaid, hcount⟩ := (post_logEvents_laid h).of_run hrun
  obtain ⟨M, hM⟩ := (post_logEvents hinj h).of_run hrun
  obtain ⟨hpers, htemp⟩ := InstanceOnly.of_run inferInstance hrun
  obtain ⟨rs, hrs, -, hconfig, hruntime⟩ := hM.runtime
  exact ⟨hlaid, hcount, ⟨rs, hrs, hconfig, hruntime⟩, hpers, htemp, hM.frame⟩

/-! ## One single call -/

/-- What one forced call of the single path leaves, key by key. -/
structure Logged (H : Host D) (c : Env × Item) (s : State D) (cfg : Config) (s' : State D) : Prop where
  appended : Appended s (newEntry H c.1 (versionOf s) (forced c.2) cfg.totalEvents
    (prevHashAt H s cfg.totalEvents)) (nextCount s c.2.2.1) s'
  unguarded : s.temporary .logEventReentrancyGuard () = none
  charged : s'.inst .submitterRateState = (charge s c.2.1 c.1.timestamp).inst .submitterRateState
  dedup : DedupRecorded (policyOf s c.2.2.1) (computeContentHash H c.1 c.2.2.1 c.2.1 c.2.2.2)
    cfg.totalEvents c.1.timestamp s s'
  config : s'.inst .config () = some { cfg with totalEvents := cfg.totalEvents + 1 }
  runtime : s'.inst .runtimeState () =
    (s.inst .runtimeState ()).map fun rs => { rs with totalEvents := cfg.totalEvents + 1 }
  packed : lowCost s = false → ∀ t, (packedType s' t).length =
    (packedType s t).length + if c.2.2.1 = t then 4 else 0
  bound : cfg.totalEvents + 1 < 2 ^ 32
  frame : s.Frame singleWrites s'

theorem step_logged {c : Env × Item} {cfg : Config} (hcfg : s.inst .config () = some cfg)
    (hs : Step H c.1 (single c).2 s r s') : Logged H c s cfg s' := by
  obtain ⟨id, hrun, -⟩ := of_run_map _ _ hs
  have hrun : (logEventWithHierarchy H (forced c.2).submitter (forced c.2).eventType
      (forced c.2).metadata (forced c.2).category (forced c.2).subEventType (forced c.2).force).run
      c.1 s = .ok (id, s') := hrun
  have hsub := post_logEventWithHierarchy.of_run hrun
  rcases hsub.outcome with ⟨k, hk, -⟩ | ⟨-, i, q', -, hst⟩
  · cases hk
  rcases post_logEventWithHierarchy_appended.of_run hrun with ⟨hdup, -⟩ | ⟨-, cfg', q, hcfg', hq, -, happ⟩
  · cases hdup
  obtain rfl : cfg = cfg' := Option.some.inj (hcfg.symm.trans hcfg')
  obtain ⟨cfg', hcfg', hi, hconfig⟩ := hst.config
  obtain rfl : cfg = cfg' := Option.some.inj (hcfg.symm.trans hcfg')
  subst hi hq
  refine ⟨happ, hsub.unguarded, hsub.charged, hst.dedup, hconfig, hst.runtime, ?_, hst.bound, hst.frame⟩
  intro hlow t
  have hty : q'.2.eventType = c.2.2.1 := congrArg Record.eventType hst.record
  rw [hst.placed.indexed.typeIndex, List.length_append, hlow, hty]
  by_cases ht : c.2.2.1 = t
  · simp [ht, u32ToBytes]
  · simp [ht]

namespace Logged
variable {c : Env × Item} {cfg : Config}

/-- The next event links to the one just stored. -/
theorem prevHashAt (h : Logged H c s cfg s') :
    prevHashAt H s' (cfg.totalEvents + 1) = (newEntry H c.1 (versionOf s) (forced c.2) cfg.totalEvents
      (AuditLedger.prevHashAt H s cfg.totalEvents)).2.eventHash := by
  have hlaid := h.appended.laid
  generalize hq : newEntry H c.1 (versionOf s) (forced c.2) cfg.totalEvents
    (AuditLedger.prevHashAt H s cfg.totalEvents) = q at hlaid ⊢
  have hindex : q.2.index = cfg.totalEvents := by rw [← hq]; rfl
  have horder : (lay s q).inst .eventOrder cfg.totalEvents = some q.1 := by
    unfold lay; split_ifs <;> simp [putEvent, hindex]
  have hdata : (lay s q).inst .eventData q.1 = some q.2 := by
    unfold lay; split_ifs <;> simp [putEvent]
  rw [AuditLedger.prevHashAt, if_neg (Nat.succ_ne_zero _), Nat.add_sub_cancel, eventAt,
    hlaid _ (by simp), hlaid _ (by simp), horder, Option.bind_some, hdata]
  rfl

/-- Temporary storage is as it was. -/
theorem temporary (h : Logged H c s cfg s') (hp : s.temporary .pendingCustomDedupKey () = none) :
    s'.temporary = s.temporary := by
  have hremove : s.temporary.remove .pendingCustomDedupKey () = s.temporary :=
    Store.remove_of_none (L := layout D) hp
  rw [h.appended.temporary, hremove]
  exact Store.remove_of_none (L := layout D) h.unguarded

theorem indexedCount (h : Logged H c s cfg s') (hlow : lowCost s = false) (t : Symbol) :
    indexedCount s' t = indexedCount s t + if c.2.2.1 = t then 1 else 0 := by
  rw [AuditLedger.indexedCount, AuditLedger.indexedCount, capOf, h.frame.inst (notMem_of_eval rfl), ← capOf,
    h.packed hlow t]
  split_ifs <;> omega

end Logged

/-! ## The single calls -/

/-- What the forced calls leave, key by key. -/
structure Singled (H : Host D) (calls : List (Env × Item)) (s : State D) (cfg : Config) (s' : State D) :
    Prop where
  laid : ∀ f ∈ layKeys, s'.inst f = (layAll s (chainOf H (versionOf s) calls cfg.totalEvents
    (prevHashAt H s cfg.totalEvents))).inst f
  typeCount : ∀ t, s'.inst .eventTypeCount t =
    countAfter (indexedCount s t) s t (calls.countP (·.2.2.1 = t))
  config : s'.inst .config () = some { cfg with totalEvents := cfg.totalEvents + calls.length }
  runtime : ∀ rs, s.inst .runtimeState () = some rs → rs.totalEvents = cfg.totalEvents →
    s'.inst .runtimeState () = some { rs with totalEvents := cfg.totalEvents + calls.length }
  customKey : s.temporary .pendingCustomDedupKey () = none →
    s'.inst .eventCustomKey = s.inst .eventCustomKey
  temporary : s.temporary .pendingCustomDedupKey () = none → s'.temporary = s.temporary
  marks : ∀ f ∈ [DataKey.logEventReentrancyGuard, .pendingCustomDedupKey], s'.inst f = s.inst f
  frame : s.Frame singleWrites s'

theorem play_cons {op : Op D} {rest : List (Env × Op D)} (h : play H s ((env, op) :: rest) = some s') :
    ∃ r s₁, Step H env op s r s₁ ∧ play H s₁ rest = some s' := by
  rw [play] at h
  rcases hrun : (exec H op).run env s with e | ⟨r, s₁⟩
  · rw [hrun] at h; cases h
  · rw [hrun] at h; exact ⟨r, s₁, hrun, h⟩

theorem singled_nil {cfg : Config} (hcfg : s.inst .config () = some cfg) : Singled H [] s cfg s where
  laid _ _ := rfl
  typeCount t := by simp [countAfter]
  config := hcfg
  runtime rs hrs hn := by rw [hrs, ← hn]; rfl
  customKey _ := rfl
  temporary _ := rfl
  marks _ _ := rfl
  frame := Ledger.frame_refl

theorem Singled.cons {c : Env × Item} {calls : List (Env × Item)} {cfg : Config} {s₁ : State D}
    (h : Logged H c s cfg s₁)
    (hs : Singled H calls s₁ { cfg with totalEvents := cfg.totalEvents + 1 } s') :
    Singled H (c :: calls) s cfg s' := by
  have hlow : lowCost s₁ = lowCost s := by rw [lowCost, h.frame.inst (notMem_of_eval rfl), lowCost]
  have hversion : versionOf s₁ = versionOf s := by rw [versionOf, h.frame.inst (notMem_of_eval rfl), versionOf]
  have hpending : s.temporary .pendingCustomDedupKey () = none →
      s₁.temporary .pendingCustomDedupKey () = none := fun hp => by rw [h.temporary hp]; exact hp
  have hlen : cfg.totalEvents + 1 + calls.length = cfg.totalEvents + (c :: calls).length := by
    rw [List.length_cons]; omega
  constructor
  · intro f hf
    rw [hs.laid f hf, hversion, h.prevHashAt]
    exact layAll_cons _ (h.frame.inst (notMem_of_eval rfl)) h.appended.laid f hf
  · intro t
    have hcount : s₁.inst .eventTypeCount = if lowCost s then s.inst .eventTypeCount
        else Function.update (s.inst .eventTypeCount) c.2.2.1 (some (indexedCount s c.2.2.1 + 1)) := by
      rw [h.appended.typeCount, nextCount_eq]
      rfl
    rw [hs.typeCount, List.countP_cons]
    simpa using countAfter_cons hlow hcount h.indexedCount t (calls.countP (·.2.2.1 = t))
  · rw [hs.config, hlen]
  · intro rs hrs hn
    have hruntime := h.runtime
    rw [hrs, Option.map_some] at hruntime
    rw [hs.runtime _ hruntime rfl, hlen]
  · intro hp
    rw [hs.customKey (hpending hp), h.appended.customKey hp]
  · intro hp
    rw [hs.temporary (hpending hp), h.temporary hp]
  · intro f hf
    rw [hs.marks f hf, h.appended.marks f hf]
  · exact h.frame.trans hs.frame

/-- **Induction over the single calls**, from the last one back. -/
theorem singles_induction {P : List (Env × Item) → State D → Config → Prop}
    (hnil : ∀ cfg, s'.inst .config () = some cfg → P [] s' cfg)
    (hcons : ∀ c calls s cfg s₁, Logged H c s cfg s₁ →
      P calls s₁ { cfg with totalEvents := cfg.totalEvents + 1 } → P (c :: calls) s cfg)
    {calls : List (Env × Item)} {cfg : Config} (hcfg : s.inst .config () = some cfg)
    (h : play H s (calls.map single) = some s') : P calls s cfg := by
  induction calls generalizing s cfg with
  | nil =>
    obtain rfl : s = s' := Option.some.inj h
    exact hnil cfg hcfg
  | cons c calls ih =>
    obtain ⟨r, s₁, hs, hrest⟩ := play_cons h
    have hlogged := step_logged hcfg hs
    exact hcons c calls s cfg s₁ hlogged (ih hlogged.config hrest)

section
variable {calls : List (Env × Item)} {cfg : Config}

theorem singled_of_play (hcfg : s.inst .config () = some cfg)
    (h : play H s (calls.map single) = some s') : Singled H calls s cfg s' :=
  singles_induction (P := fun calls s cfg => Singled H calls s cfg s') (fun _ => singled_nil)
    (fun _ _ _ _ _ hlogged hrest => hrest.cons hlogged) hcfg h

/-- **Rates.**  The single calls charge every submitter with a limit. -/
theorem singles_rate {now : ℕ} (htime : ∀ c ∈ calls, c.1.timestamp = now)
    (hcfg : s.inst .config () = some cfg) (h : play H s (calls.map single) = some s') :
    s'.inst .submitterRateState = s.inst .submitterRateState ↔
      ∀ c ∈ calls, s.inst .submitterRateLimit c.2.1 = none := by
  have key : (∀ c ∈ calls, c.1.timestamp = now) →
      ((∀ c ∈ calls, s.inst .submitterRateLimit c.2.1 = none) →
        s'.inst .submitterRateState = s.inst .submitterRateState) ∧
      ∀ a, spent s' a now = spent s a now +
        if (s.inst .submitterRateLimit a).isSome then calls.countP (·.2.1 = a) else 0 := by
    refine singles_induction (P := fun calls s _ => (∀ c ∈ calls, c.1.timestamp = now) →
      ((∀ c ∈ calls, s.inst .submitterRateLimit c.2.1 = none) →
        s'.inst .submitterRateState = s.inst .submitterRateState) ∧
      ∀ a, spent s' a now = spent s a now +
        if (s.inst .submitterRateLimit a).isSome then calls.countP (·.2.1 = a) else 0) ?_ ?_ hcfg h
    · intro _ _ _
      simp
    · intro c calls s cfg s₁ hlogged ih htime
      obtain ⟨hnow, htime⟩ := List.forall_mem_cons.1 htime
      obtain ⟨hsame, hspent⟩ := ih htime
      have hlimit : s₁.inst .submitterRateLimit = s.inst .submitterRateLimit :=
        hlogged.frame.inst (notMem_of_eval rfl)
      rw [hlimit] at hsame hspent
      have hcharged := hlogged.charged
      rw [hnow] at hcharged
      constructor
      · intro hnone
        obtain ⟨hc, hnone⟩ := List.forall_mem_cons.1 hnone
        rw [hsame hnone, hcharged, charge, hc]
      · intro a
        have hstep : spent s₁ a now = spent (charge s c.2.1 now) a now := by
          simp only [spent, hcharged]
        rw [hspent, hstep, spent_charge, List.countP_cons]
        by_cases hl : (s.inst .submitterRateLimit a).isSome
        · simp [hl]; omega
        · simp [hl]
  obtain ⟨hsame, hspent⟩ := key htime
  refine ⟨fun heq c hc => ?_, hsame⟩
  by_contra hlimit
  have hcount := hspent c.2.1
  rw [spent, heq, ← spent, if_pos (Option.isSome_iff_ne_none.2 hlimit)] at hcount
  have hpos : 0 < calls.countP (·.2.1 = c.2.1) := List.countP_pos_iff.2 ⟨c, hc, by simp⟩
  omega

/-- A dedup map has an entry for a position from `n` on. -/
def Late (s : State D) (n : ℕ) : Prop :=
  ∃ d k, n ≤ k ∧ (s.inst .eventContentHash d = some k ∨
    ∃ ts, s.inst .eventContentHashWithTs d = some (k, ts))

theorem late_of_recorded {policy : DedupPolicy} {d : D} {i ts n : ℕ}
    (hd : DedupRecorded policy d i ts s s') (hn : n ≤ i)
    (h : Late s n ∨ ¬(policy = .none ∨ policy = .custom)) : Late s' n := by
  obtain ⟨hhash, hhashTs⟩ := hd
  cases policy with
  | contentHash => exact ⟨d, i, hn, Or.inl (by simp [hhash])⟩
  | contentHashWithTimestamp => exact ⟨d, i, hn, Or.inr ⟨ts, by simp [hhashTs]⟩⟩
  | none | custom =>
    obtain ⟨d', k, hk, hentry⟩ : Late s n := by simpa using h
    simp only [reduceCtorEq, if_false] at hhash hhashTs
    exact ⟨d', k, hk, by rw [hhash, hhashTs]; exact hentry⟩

/-- **Dedup maps.**  The single calls record content under the policies with a content hash. -/
theorem singles_dedup (hb : Backed H s cfg.totalEvents) (hcfg : s.inst .config () = some cfg)
    (h : play H s (calls.map single) = some s') :
    (s'.inst .eventContentHash = s.inst .eventContentHash ∧
      s'.inst .eventContentHashWithTs = s.inst .eventContentHashWithTs) ↔
      ∀ c ∈ calls, policyOf s c.2.2.1 = .none ∨ policyOf s c.2.2.1 = .custom := by
  have key : ((∀ c ∈ calls, policyOf s c.2.2.1 = .none ∨ policyOf s c.2.2.1 = .custom) →
        s'.inst .eventContentHash = s.inst .eventContentHash ∧
        s'.inst .eventContentHashWithTs = s.inst .eventContentHashWithTs) ∧
      ∀ n ≤ cfg.totalEvents, (Late s n ∨
        ∃ c ∈ calls, ¬(policyOf s c.2.2.1 = .none ∨ policyOf s c.2.2.1 = .custom)) → Late s' n := by
    refine singles_induction (P := fun calls s cfg =>
      ((∀ c ∈ calls, policyOf s c.2.2.1 = .none ∨ policyOf s c.2.2.1 = .custom) →
        s'.inst .eventContentHash = s.inst .eventContentHash ∧
        s'.inst .eventContentHashWithTs = s.inst .eventContentHashWithTs) ∧
      ∀ n ≤ cfg.totalEvents, (Late s n ∨
        ∃ c ∈ calls, ¬(policyOf s c.2.2.1 = .none ∨ policyOf s c.2.2.1 = .custom)) → Late s' n)
      ?_ ?_ hcfg h
    · intro _ _
      refine ⟨fun _ => ⟨rfl, rfl⟩, ?_⟩
      rintro n - (hlate | ⟨c, hc, -⟩)
      · exact hlate
      · cases hc
    · rintro c calls s cfg s₁ hlogged ⟨hsame, hlate⟩
      have hpolicy : ∀ t, policyOf s₁ t = policyOf s t := by
        intro t
        rw [policyOf, hlogged.frame.inst (notMem_of_eval rfl), hlogged.frame.inst (notMem_of_eval rfl), policyOf]
      simp only [hpolicy] at hsame hlate
      constructor
      · intro hquiet
        obtain ⟨hc, hquiet⟩ := List.forall_mem_cons.1 hquiet
        obtain ⟨hhash, hhashTs⟩ := hlogged.dedup
        have hne : policyOf s c.2.2.1 ≠ .contentHash ∧
            policyOf s c.2.2.1 ≠ .contentHashWithTimestamp := by
          rcases hc with hc | hc <;> simp [hc]
        rw [if_neg hne.1] at hhash
        rw [if_neg hne.2] at hhashTs
        exact ⟨(hsame hquiet).1.trans hhash, (hsame hquiet).2.trans hhashTs⟩
      · rintro n hn hor
        refine hlate n (Nat.le_succ_of_le hn) ?_
        rcases hor with hl | ⟨c', hc', hloud⟩
        · exact Or.inl (late_of_recorded hlogged.dedup hn (Or.inl hl))
        · rcases List.mem_cons.1 hc' with rfl | hc'
          · exact Or.inl (late_of_recorded hlogged.dedup hn (Or.inr hloud))
          · exact Or.inr ⟨c', hc', hloud⟩
  obtain ⟨hsame, hlate⟩ := key
  refine ⟨fun heq c hc => ?_, hsame⟩
  by_contra hloud
  -- the entry is there before, for a position the log does not have yet
  obtain ⟨d, k, hk, hentry⟩ := hlate _ le_rfl (Or.inr ⟨c, hc, hloud⟩)
  rw [heq.1, heq.2] at hentry
  rcases hentry with hentry | ⟨ts, hentry⟩
  · exact absurd (hb.byHash d k hentry) (Nat.not_lt.2 hk)
  · exact absurd (hb.byHashWithTs d (k, ts) hentry) (Nat.not_lt.2 hk)

/-- There is a copy of an event at a position from `n` on. -/
def LateCopy (H : Host D) (s : State D) (n : ℕ) : Prop :=
  ∃ id i, n ≤ i ∧ i < 2 ^ 32 ∧ IdAt H i id ∧ s.persistent .eventData id ≠ none

/-- **Copies.**  The single calls copy every event when there is a time to live. -/
theorem singles_copies (hinj : Function.Injective H.sha256) (hb : Backed H s cfg.totalEvents)
    (hcfg : s.inst .config () = some cfg) (h : play H s (calls.map single) = some s') :
    s'.persistent = s.persistent ↔ ∀ c ∈ calls, ttlOf s = 0 := by
  have key : ((∀ c ∈ calls, ttlOf s = 0) → s'.persistent = s.persistent) ∧
      (0 < ttlOf s → ∀ n ≤ cfg.totalEvents, (LateCopy H s n ∨ calls ≠ []) → LateCopy H s' n) := by
    refine singles_induction (P := fun calls s cfg =>
      ((∀ c ∈ calls, ttlOf s = 0) → s'.persistent = s.persistent) ∧
      (0 < ttlOf s → ∀ n ≤ cfg.totalEvents, (LateCopy H s n ∨ calls ≠ []) → LateCopy H s' n))
      ?_ ?_ hcfg h
    · intro _ _
      refine ⟨fun _ => rfl, ?_⟩
      rintro - n - (hlate | hne)
      · exact hlate
      · exact absurd rfl hne
    · rintro c calls s cfg s₁ hlogged ⟨hsame, hlate⟩
      have hpers := hlogged.appended.persistent
      have httl : ttlOf s₁ = ttlOf s := by rw [ttlOf, hlogged.frame.inst (notMem_of_eval rfl), ttlOf]
      rw [httl] at hsame hlate
      constructor
      · intro hzero
        obtain ⟨hc, hzero⟩ := List.forall_mem_cons.1 hzero
        rw [hsame hzero, hpers, if_neg (by omega)]
      · intro hpos n hn _
        -- the first of them is copied, and no later call removes a copy
        refine hlate hpos n (Nat.le_succ_of_le hn) (Or.inl ⟨_, cfg.totalEvents, hn, ?_,
          idAt_computeEventId H c.1 c.2.1 c.2.2.1 c.2.2.2 c.1.timestamp cfg.totalEvents, ?_⟩)
        · have := hlogged.bound
          omega
        · rw [hpers, if_pos hpos, Store.set_same]
          simp [newEntry, forced]
  obtain ⟨hsame, hlate⟩ := key
  refine ⟨fun heq c hc => ?_, hsame⟩
  by_contra hpos
  obtain ⟨id, i, hi, hlt, hat, hcopy⟩ :=
    hlate (Nat.pos_of_ne_zero hpos) _ le_rfl (Or.inr (List.ne_nil_of_mem hc))
  rw [heq] at hcopy
  obtain ⟨j, hj, hat'⟩ := hb.copies id hcopy
  have := IdAt.unique hinj hlt (by omega) hat hat'
  omega

/-! ## The entries of both -/

omit [DecidableEq D] in
theorem newEntry_congr {env' : Env} {version i : ℕ} {x : Submission} {prev : D}
    (htime : env'.timestamp = env.timestamp) (hpay : env'.payload x.eventType = env.payload x.eventType) :
    newEntry H env' version x i prev = newEntry H env version x i prev := by
  simp only [newEntry, computeEventId, htime, hpay]

/-- Earlier positions keep their ids. -/
theorem eventOrder_layAll {version n i : ℕ} {prev : D} (hi : i < n) :
    (layAll s (chainOf H version calls n prev)).inst .eventOrder i = s.inst .eventOrder i := by
  induction calls generalizing s n prev with
  | nil => rfl
  | cons c calls ih =>
    have hlay : (lay s (newEntry H c.1 version (forced c.2) n prev)).inst .eventOrder i =
        s.inst .eventOrder i := by
      have hne : i ≠ n := by omega
      unfold lay
      split_ifs <;> simp [putEvent, newEntry, hne]
    exact (ih (by omega)).trans hlay

theorem eventOrder_lay {version n : ℕ} {prev : D} (c : Env × Item) :
    (lay s (newEntry H c.1 version (forced c.2) n prev)).inst .eventOrder n =
      some (newEntry H c.1 version (forced c.2) n prev).1 := by
  unfold lay
  split_ifs <;> simp [putEvent, newEntry]

theorem layAll_chainOf {version n : ℕ} {prev : D} (c : Env × Item) :
    layAll s (chainOf H version (c :: calls) n prev) =
      layAll (lay s (newEntry H c.1 version (forced c.2) n prev)) (chainOf H version calls (n + 1)
        (newEntry H c.1 version (forced c.2) n prev).2.eventHash) := rfl

/-- **Entries.**  A batch and the single calls lay the same entries when the types have the same
    payloads, and otherwise the ids differ. -/
theorem laid_iff (hinj : Function.Injective H.sha256)
    (htime : ∀ c ∈ calls, c.1.timestamp = env.timestamp) (s : State D) (version n : ℕ) (prev : D) :
    (∀ f ∈ layKeys, (layAll s (chainOf H version (calls.map (env, ·.2)) n prev)).inst f =
      (layAll s (chainOf H version calls n prev)).inst f) ↔
      ∀ c ∈ calls, c.1.payload c.2.2.1 = env.payload c.2.2.1 := by
  induction calls generalizing s n prev with
  | nil => simp [chainOf]
  | cons c calls ih =>
    obtain ⟨hnow, htime⟩ := List.forall_mem_cons.1 htime
    constructor
    · intro h
      -- the ids at this position tell the payloads
      have hid := congrFun (h .eventOrder (by simp)) n
      rw [List.map_cons, layAll_chainOf, layAll_chainOf, eventOrder_layAll (Nat.lt_succ_self n),
        eventOrder_layAll (Nat.lt_succ_self n), eventOrder_lay, eventOrder_lay] at hid
      have hpay : c.1.payload c.2.2.1 = env.payload c.2.2.1 := by
        have hid := Option.some.inj hid
        simp only [newEntry, hnow] at hid
        exact (computeEventId_payload hinj hid).symm
      rw [List.map_cons, layAll_chainOf, layAll_chainOf,
        newEntry_congr (x := forced c.2) hnow.symm hpay.symm] at h
      exact List.forall_mem_cons.2 ⟨hpay, (ih htime _ _ _).1 h⟩
    · intro hpay
      obtain ⟨hc, hrest⟩ := List.forall_mem_cons.1 hpay
      rw [List.map_cons, layAll_chainOf, layAll_chainOf,
        newEntry_congr (x := forced c.2) hnow.symm hc.symm]
      exact (ih htime _ _ _).2 hrest

end

/-! ## Agreement -/

/-- The conditions under which a batch in `env` and the single calls `calls` agree. -/
structure Interchangeable (env : Env) (s : State D) (calls : List (Env × Item)) : Prop where
  /-- `Config` and `RuntimeState` have the same global cap -/
  globalMax : (s.inst .config ()).map (·.globalMaxLogs) =
    (s.inst .runtimeState ()).map (·.globalMaxLogs)
  unlimited : ∀ c ∈ calls, s.inst .submitterRateLimit c.2.1 = none
  undeduplicated : ∀ c ∈ calls, policyOf s c.2.2.1 = .none ∨ policyOf s c.2.2.1 = .custom
  uncopied : ∀ c ∈ calls, ttlOf s = 0
  counted : ∀ c ∈ calls, lowCost s = true ∨ cachedCount s c.2.2.1 = indexedCount s c.2.2.1
  /-- the type has the same payload in every invocation, as short symbols have -/
  payload : ∀ c ∈ calls, c.1.payload c.2.2.1 = env.payload c.2.2.1

instance (env : Env) (s : State D) (calls : List (Env × Item)) :
    Decidable (Interchangeable env s calls) :=
  decidable_of_iff
    ((s.inst .config ()).map (·.globalMaxLogs) = (s.inst .runtimeState ()).map (·.globalMaxLogs) ∧
      (∀ c ∈ calls, s.inst .submitterRateLimit c.2.1 = none) ∧
      (∀ c ∈ calls, policyOf s c.2.2.1 = .none ∨ policyOf s c.2.2.1 = .custom) ∧
      (∀ c ∈ calls, ttlOf s = 0) ∧
      (∀ c ∈ calls, lowCost s = true ∨ cachedCount s c.2.2.1 = indexedCount s c.2.2.1) ∧
      ∀ c ∈ calls, c.1.payload c.2.2.1 = env.payload c.2.2.1) <| by
    constructor
    · rintro ⟨h₁, h₂, h₃, h₄, h₅, h₆⟩
      exact ⟨h₁, h₂, h₃, h₄, h₅, h₆⟩
    · rintro ⟨h₁, h₂, h₃, h₄, h₅, h₆⟩
      exact ⟨h₁, h₂, h₃, h₄, h₅, h₆⟩

/-- **Counts.**  The cached counts agree for the types in the batch when they were in step. -/
theorem countAfter_iff {calls : List (Env × Item)} :
    (∀ t, countAfter (cachedCount s t) s t (calls.countP (·.2.2.1 = t)) =
      countAfter (indexedCount s t) s t (calls.countP (·.2.2.1 = t))) ↔
      ∀ c ∈ calls, lowCost s = true ∨ cachedCount s c.2.2.1 = indexedCount s c.2.2.1 := by
  unfold countAfter
  constructor
  · intro h c hc
    have ht := h c.2.2.1
    have hpos : calls.countP (·.2.2.1 = c.2.2.1) ≠ 0 :=
      (List.countP_pos_iff.2 ⟨c, hc, by simp⟩).ne'
    by_cases hlow : lowCost s = true
    · exact Or.inl hlow
    · rw [if_neg (by tauto), if_neg (by tauto), Option.some.injEq, Nat.add_right_cancel_iff] at ht
      exact Or.inr ht
  · intro h t
    by_cases hskip : lowCost s = true ∨ calls.countP (·.2.2.1 = t) = 0
    · rw [if_pos hskip, if_pos hskip]
    · obtain ⟨hlow, hpos⟩ := not_or.1 hskip
      obtain ⟨c, hc, ht⟩ := List.countP_pos_iff.1 (Nat.pos_of_ne_zero hpos)
      have ht : c.2.2.1 = t := by simpa using ht
      rw [if_neg hskip, if_neg hskip, ← ht, (h c hc).resolve_left hlow]

section
variable {calls : List (Env × Item)} {cfg : Config} {sb ss : State D}

theorem BatchLaid.config_iff (hB : BatchLaid H env (calls.map Prod.snd) s cfg.totalEvents sb)
    (hS : Singled H calls s cfg ss) (hcfg : s.inst .config () = some cfg) :
    sb.inst .config = ss.inst .config ↔ (s.inst .config ()).map (·.globalMaxLogs) =
      (s.inst .runtimeState ()).map (·.globalMaxLogs) := by
  obtain ⟨rs, hrs, hconfig, -⟩ := hB.counters
  rw [hcfg, hrs, Option.map_some, Option.map_some, Option.some.injEq]
  constructor
  · intro h
    have hc := congrFun h ()
    rw [hconfig, hS.config, Option.some.injEq, Config.mk.injEq] at hc
    exact hc.1.symm
  · intro h
    funext u
    rw [hconfig, hS.config, ← h, List.length_map]

theorem BatchLaid.typeCount_iff (hB : BatchLaid H env (calls.map Prod.snd) s cfg.totalEvents sb)
    (hS : Singled H calls s cfg ss) : sb.inst .eventTypeCount = ss.inst .eventTypeCount ↔
      ∀ c ∈ calls, lowCost s = true ∨ cachedCount s c.2.2.1 = indexedCount s c.2.2.1 := by
  rw [funext_iff, ← countAfter_iff]
  refine forall_congr' fun t => ?_
  have hcount : (calls.map Prod.snd).countP (·.2.1 = t) = calls.countP (·.2.2.1 = t) := List.countP_map ..
  rw [hB.typeCount, hS.typeCount, hcount]

theorem BatchLaid.laid_iff (hB : BatchLaid H env (calls.map Prod.snd) s cfg.totalEvents sb)
    (hS : Singled H calls s cfg ss) (hinj : Function.Injective H.sha256)
    (htime : ∀ c ∈ calls, c.1.timestamp = env.timestamp) :
    (∀ f ∈ layKeys, sb.inst f = ss.inst f) ↔ ∀ c ∈ calls, c.1.payload c.2.2.1 = env.payload c.2.2.1 := by
  have hmap : (calls.map Prod.snd).map (env, ·) = calls.map (env, ·.2) := by
    rw [List.map_map]; rfl
  rw [← AuditLedger.laid_iff hinj htime s (versionOf s) cfg.totalEvents
    (prevHashAt H s cfg.totalEvents), ← hmap]
  exact forall₂_congr fun f hf => by rw [hB.laid f hf, hS.laid f hf]

/-- The other keys of the two paths. -/
theorem mem_singleWrites {f : DataKey} (hf : f ∈ singleWrites) (hl : f ∉ layKeys) :
    f ∈ [DataKey.config, .runtimeState, .eventTypeCount, .submitterRateState, .eventContentHash,
      .eventContentHashWithTs, .eventCustomKey, .logEventReentrancyGuard, .pendingCustomDedupKey] := by
  revert f
  decide

end

/-- **A batch and the single calls agree exactly when they are interchangeable.**  From every
    reachable state, for every batch that succeeds and whose items, forced through the single path
    one after the other at the same timestamp, succeed as well. -/
theorem batch_agrees_iff (hinj : Function.Injective H.sha256) (hreach : Reachable H s)
    {calls : List (Env × Item)} (htime : ∀ c ∈ calls, c.1.timestamp = env.timestamp)
    {sb ss : State D} (hbatch : Step H env (.logEvents (calls.map Prod.snd)) s r sb)
    (hsingles : play H s (calls.map single) = some ss) :
    sb.Agrees ss ↔ Interchangeable env s calls := by
  obtain ⟨L, hL, hb, hp⟩ := backed_of_reachable hinj hreach
  obtain ⟨cfg, hcfg, hn⟩ := hL.counted.config
  have hB := step_batchLaid hinj hL hbatch
  have hS := singled_of_play hcfg hsingles
  rw [← hn] at hb hB
  have hconfig := hB.config_iff hS hcfg
  have hcount := hB.typeCount_iff hS
  have hlaid := hB.laid_iff hS hinj htime
  have hrate := singles_rate htime hcfg hsingles
  have hdedup := singles_dedup hb hcfg hsingles
  have hcopies := singles_copies hinj hb hcfg hsingles
  -- the batch leaves the other keys of the single path alone
  have hkept : ∀ f, f ∉ batchWrites → sb.inst f = s.inst f := fun f hf => hB.frame.inst hf
  constructor
  · rintro ⟨hinst, hpers, -⟩
    have hsame : ∀ f, f ∉ batchWrites → ss.inst f = s.inst f := fun f hf => by rw [← hinst, hkept f hf]
    exact ⟨hconfig.1 (by rw [hinst]), hrate.1 (hsame _ (by simp)),
      hdedup.1 ⟨hsame _ (by simp), hsame _ (by simp)⟩, hcopies.1 (by rw [← hpers, hB.persistent]),
      hcount.1 (by rw [hinst]), hlaid.1 fun f _ => by rw [hinst]⟩
  · intro h
    refine ⟨?_, by rw [hB.persistent, hcopies.2 h.uncopied], by rw [hB.temporary, hS.temporary hp]⟩
    funext f
    by_cases hf : f ∈ singleWrites
    · by_cases hl : f ∈ layKeys
      · exact hlaid.2 h.payload f hl
      · have hdedup := hdedup.2 h.undeduplicated
        have hf := mem_singleWrites hf hl
        simp only [List.mem_cons, List.not_mem_nil, or_false] at hf
        rcases hf with rfl | rfl | rfl | rfl | rfl | rfl | rfl | rfl | rfl
        · exact hconfig.2 h.globalMax
        · obtain ⟨rs, hrs, -, hruntime⟩ := hB.counters
          obtain ⟨rs', hrs', hn'⟩ := hL.counted.runtime
          obtain rfl : rs = rs' := Option.some.inj (hrs.symm.trans hrs')
          funext u
          rw [hruntime, hS.runtime rs hrs (hn'.trans hn.symm), List.length_map]
        · exact hcount.2 h.counted
        · rw [hkept _ (by simp), hrate.2 h.unlimited]
        · rw [hkept _ (by simp), hdedup.1]
        · rw [hkept _ (by simp), hdedup.2]
        · rw [hkept _ (by simp), hS.customKey hp]
        · rw [hkept _ (by simp), hS.marks _ (by simp)]
        · rw [hkept _ (by simp), hS.marks _ (by simp)]
    · rw [hkept f fun h => hf (List.mem_cons_of_mem _ (List.mem_append_right _ h)),
        hS.frame.inst hf]

/-- No deduplication, and a cap on the type `a`. -/
def quietScript : List (Env × Op Bytes) :=
  [(openEnv 11, .setDedupPolicy (account 65) .none), (openEnv 11, .setEventMaxLogs (account 65) "a" 5)]

/-- Two events of the type `a`, in an invocation each. -/
def pairCalls : List (Env × Item) :=
  [(openEnv 12, account 66, "a", [1]), (openEnv 12, account 67, "a", [2])]

theorem batch_agrees_iff_pairCalls : ∃ s r sb ss, Reachable plainHost s ∧
    Step plainHost (openEnv 12) (.logEvents (pairCalls.map Prod.snd)) s r sb ∧
    play plainHost s (pairCalls.map single) = some ss ∧ sb.Agrees ss ∧
    (eventAt ss 1).map (·.metadata) = some [2] := by
  let s₀ : State Bytes := deployed (openEnv 10) (account 65) 100 50
  obtain ⟨s, hs⟩ : ∃ s, play plainHost s₀ quietScript = some s :=
    Option.isSome_iff_exists.1 (by decide +kernel)
  obtain ⟨sb, hsb⟩ : ∃ sb, play plainHost s₀
      (quietScript ++ [(openEnv 12, .logEvents (pairCalls.map Prod.snd))]) = some sb :=
    Option.isSome_iff_exists.1 (by decide +kernel)
  obtain ⟨s', r, hs', hbatch⟩ := step_of_play hsb
  obtain rfl : s = s' := Option.some.inj (hs.symm.trans hs')
  have before : (play plainHost s₀ quietScript).map (fun s =>
      decide (Interchangeable (openEnv 12) s pairCalls)) = some true := by decide +kernel
  have after : (play plainHost s₀ quietScript).bind (fun s =>
      (play plainHost s (pairCalls.map single)).map fun s => (eventAt s 1).map (·.metadata)) =
      some (some [2]) := by decide +kernel
  rw [hs] at before after
  obtain ⟨ss, hsingles, hafter⟩ := Option.map_eq_some_iff.1 after
  have hreach : Reachable plainHost s := ⟨_, history_of_play (init_deployed rfl 100 50) hs⟩
  refine ⟨s, r, sb, ss, hreach, hbatch, hsingles,
    (batch_agrees_iff Function.injective_id hreach (by decide) hbatch hsingles).2 ?_, hafter⟩
  exact of_decide_eq_true (Option.some.inj before)

/-- An event of the type `a`. -/
def oneCall : List (Env × Item) := [(openEnv 12, account 66, "a", [1])]

/-- On a fresh contract, only the single path records the content of an event. -/
theorem batch_leaves_no_hash : ∃ s r sb ss, Reachable plainHost s ∧
    Step plainHost (openEnv 12) (.logEvents (oneCall.map Prod.snd)) s r sb ∧
    play plainHost s (oneCall.map single) = some ss ∧ ¬sb.Agrees ss := by
  let s₀ : State Bytes := deployed (openEnv 10) (account 65) 100 50
  obtain ⟨sb, hsb⟩ : ∃ sb, play plainHost s₀
      ([] ++ [(openEnv 12, .logEvents (oneCall.map Prod.snd))]) = some sb :=
    Option.isSome_iff_exists.1 (by decide +kernel)
  obtain ⟨ss, hss⟩ : ∃ ss, play plainHost s₀ (oneCall.map single) = some ss :=
    Option.isSome_iff_exists.1 (by decide +kernel)
  obtain ⟨s, r, hs, hbatch⟩ := step_of_play hsb
  obtain rfl : s₀ = s := Option.some.inj hs
  let recorded (s : State Bytes) : Option ℕ :=
    s.inst .eventContentHash (computeContentHash plainHost (openEnv 12) "a" (account 66) [1])
  have hb : (play plainHost s₀ ([] ++ [(openEnv 12, .logEvents (oneCall.map Prod.snd))])).map
      recorded = some none := by decide +kernel
  have hone : (play plainHost s₀ (oneCall.map single)).map recorded = some (some 0) := by
    decide +kernel
  rw [hsb] at hb
  rw [hss] at hone
  refine ⟨s₀, r, sb, ss, ⟨[], s₀, init_deployed rfl 100 50, .init⟩, hbatch, hss, fun hagree => ?_⟩
  have heq : recorded sb = recorded ss := by
    simp only [recorded, hagree.inst]
  rw [Option.some.inj hb, Option.some.inj hone] at heq
  cases heq

end AuditLedger
