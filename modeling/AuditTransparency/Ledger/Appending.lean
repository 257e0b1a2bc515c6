/-
  AuditLedger — what the write paths append.

  Both write paths place an event (`PlacedIn`): they store it after the last
  position and, except in low-cost mode, enter it in the packed indices.

  * `Stored` is what a call of the single path leaves when it stores the event,
    and `Submitted` what any successful call of it does, duplicates included;
  * `Batched` is what a call of the batch path leaves.
-/
import AuditTransparency.Ledger.Effects

namespace AuditLedger

open Soroban
open Soroban.Call hiding hasPers publish

variable {D : Type} [DecidableEq D] {H : Host D} {env : Env} {s s' : State D} {L : List (Entry D)}

/-! ## Views of the indices -/

/-- `EventTypeIndices(t)`, empty when absent. -/
def packedType (s : State D) (t : Symbol) : Bytes := (s.inst .eventTypeIndices t).getD []

/-- `SubmitterEventIndices(a)`, empty when absent. -/
def packedSubmitter (s : State D) (a : Address) : Bytes := (s.inst .submitterEventIndices a).getD []

/-- `SubmitterEventCount(a)`, 0 when absent. -/
def submitterTotal (s : State D) (a : Address) : ℕ := (s.inst .submitterEventCount a).getD 0

/-- `EventTypeCount(t)`, 0 when absent. -/
def cachedCount (s : State D) (t : Symbol) : ℕ := (s.inst .eventTypeCount t).getD 0

def lowCost (s : State D) : Bool := (s.inst .lowCostMode ()).getD false

/-- The cap of the type, when one is set. -/
def capOf (s : State D) (t : Symbol) : Option ℕ := (s.inst .eventCapConfig t).join

/-- Position `i` has been entered in the indices of `t` and `a`, with the cached
    count of `t` set to `n`; in low-cost mode, nothing has. -/
structure Indexed (s s' : State D) (t : Symbol) (a : Address) (i n : ℕ) : Prop where
  typeIndex : ∀ y, packedType s' y =
    packedType s y ++ if lowCost s = false ∧ t = y then u32ToBytes i else []
  submitterIndex : ∀ b, packedSubmitter s' b =
    packedSubmitter s b ++ if lowCost s = false ∧ a = b then u32ToBytes i else []
  submitterTotal : ∀ b, submitterTotal s' b =
    submitterTotal s b + if lowCost s = false ∧ a = b then 1 else 0
  cachedCount : ∀ y, cachedCount s' y = if lowCost s = false ∧ t = y then n else cachedCount s y
  bounded : lowCost s = false →
    (packedType s t).length + 4 < 2 ^ 32 ∧ (packedSubmitter s a).length + 4 < 2 ^ 32

/-- What is written elsewhere, before or after, does not matter. -/
theorem Indexed.congr {s₀ s₁ : State D} {t : Symbol} {a : Address} {i n : ℕ} (h : Indexed s s' t a i n)
    (hs : ∀ f ∈ DataKey.lowCostMode :: indexWrites, s₀.inst f = s.inst f)
    (hs' : ∀ f ∈ indexWrites, s₁.inst f = s'.inst f) : Indexed s₀ s₁ t a i n := by
  have hlow : lowCost s₀ = lowCost s := by rw [lowCost, hs _ (by simp), lowCost]
  refine ⟨fun y => ?_, fun a => ?_, fun a => ?_, fun y => ?_, ?_⟩
  · rw [packedType, packedType, hs _ (by simp), hs' _ (by simp), hlow]; exact h.typeIndex y
  · rw [packedSubmitter, packedSubmitter, hs _ (by simp), hs' _ (by simp), hlow]
    exact h.submitterIndex a
  · rw [AuditLedger.submitterTotal, AuditLedger.submitterTotal, hs _ (by simp), hs' _ (by simp), hlow]
    exact h.submitterTotal a
  · rw [AuditLedger.cachedCount, AuditLedger.cachedCount, hs _ (by simp), hs' _ (by simp), hlow]
    exact h.cachedCount y
  · rw [hlow, packedType, packedSubmitter, hs _ (by simp), hs _ (by simp)]; exact h.bounded

/-- The event `evt` has been placed: stored under its position and indexed. -/
structure PlacedIn (s s' : State D) (id : D) (evt : Event D) (n : ℕ) : Prop where
  order : s'.inst .eventOrder = Function.update (s.inst .eventOrder) evt.index (some id)
  data : s'.inst .eventData = Function.update (s.inst .eventData) id (some evt)
  indexed : Indexed s s' evt.eventType evt.submitter evt.index n

/-- A placed event extends the log. -/
theorem PlacedIn.extends (hinj : Function.Injective H.sha256) {q : Entry D} {n : ℕ}
    (h : PlacedIn s s' q.1 q.2 n) (hh : Holds s L) (hc : Chain H L) (hq : Placed H L.length q)
    (hprev : q.2.prevHash = hashBefore H L L.length)
    (hhash : q.2.eventHash = computeEventHash H q.1 q.2.prevHash L.length q.2.timestamp)
    (hl : L.length + 1 < 2 ^ 32) : Holds s' (L ++ [q]) ∧ Chain H (L ++ [q]) := by
  refine ⟨hh.append (fun p hp => ?_) (hq.index_eq ▸ h.order) h.data, hc.append hq hprev hhash hl⟩
  obtain ⟨i, hi⟩ := List.mem_iff_getElem?.1 hp
  have := (List.getElem?_eq_some_iff.1 hi).1
  exact hc.ne_of_placed hinj (by omega) hq i p (by omega) hi

theorem Versions.append (h : Versions s L) (M : List (Entry D))
    (hs : s'.inst .eventVersions = s.inst .eventVersions) : Versions s' (L ++ M) := by
  intro i vs hvs
  rw [hs] at hvs
  obtain ⟨p, hp, hall⟩ := h i vs hvs
  exact ⟨p, by rw [List.getElem?_append_left (List.getElem?_eq_some_iff.1 hp).1, hp], hall⟩

/-! ## The writes -/

section
variable {R : Unit → State D → Prop}

theorem post_pushTypeIndex {t : Symbol} {i : ℕ} :
    Post (pushTypeIndex t i) R env s ↔ ((packedType s t).length + 4 < 2 ^ 32 →
      R () (s.put .eventTypeIndices t (packedType s t ++ u32ToBytes i))) := by
  simp only [pushTypeIndex, post_bind, post_load, post_addChecked, post_store, packedType]

theorem post_pushSubmitterIndex {a : Address} {i : ℕ} :
    Post (pushSubmitterIndex a i) R env s ↔ ((packedSubmitter s a).length + 4 < 2 ^ 32 →
      submitterTotal s a + 1 < 2 ^ 32 →
      R () ((s.put .submitterEventIndices a (packedSubmitter s a ++ u32ToBytes i)).put
        .submitterEventCount a (submitterTotal s a + 1))) := by
  simp only [pushSubmitterIndex, submitterCount, post_bind, post_load, post_addChecked, post_store,
    post_pure, packedSubmitter, submitterTotal]
  simp

/-- The indices with one more event. -/
def pushIndices (s : State D) (t : Symbol) (a : Address) (i n : ℕ) : State D :=
  (((s.put .eventTypeIndices t (packedType s t ++ u32ToBytes i)).put
    .submitterEventIndices a (packedSubmitter s a ++ u32ToBytes i)).put
    .submitterEventCount a (submitterTotal s a + 1)).put .eventTypeCount t n

theorem indexed_pushIndices {t : Symbol} {a : Address} {i n : ℕ} (h : lowCost s = false)
    (ht : (packedType s t).length + 4 < 2 ^ 32) (ha : (packedSubmitter s a).length + 4 < 2 ^ 32) :
    Indexed s (pushIndices s t a i n) t a i n := by
  refine ⟨fun y => ?_, fun b => ?_, fun b => ?_, fun y => ?_, fun _ => ⟨ht, ha⟩⟩
  · by_cases hy : t = y
    · subst hy; simp [h, pushIndices, packedType]
    · simp [hy, pushIndices, packedType, Function.update_of_ne (Ne.symm hy)]
  · by_cases hb : a = b
    · subst hb; simp [h, pushIndices, packedSubmitter]
    · simp [hb, pushIndices, packedSubmitter, Function.update_of_ne (Ne.symm hb)]
  · by_cases hb : a = b
    · subst hb; simp [h, pushIndices, submitterTotal]
    · simp [hb, pushIndices, submitterTotal, Function.update_of_ne (Ne.symm hb)]
  · by_cases hy : t = y
    · subst hy; simp [h, pushIndices, cachedCount]
    · simp [hy, pushIndices, cachedCount, Function.update_of_ne (Ne.symm hy)]

theorem indexed_lowCost {t : Symbol} {a : Address} {i n : ℕ} (h : lowCost s = true) :
    Indexed s s t a i n := by
  constructor <;> simp [h]

/-- `indexSingle` keeps the count it was given, or counts after the push. -/
theorem post_indexSingle {t : Symbol} {a : Address} {i : ℕ} {typeCount : Option ℕ}
    (h : (packedType s t).length + 4 < 2 ^ 32 → (packedSubmitter s a).length + 4 < 2 ^ 32 →
      R () (pushIndices s t a i (typeCount.getD ((packedType s t).length / 4 + 1) + 1))) :
    Post (indexSingle t a i typeCount) R env s := by
  simp only [indexSingle, post_bind, post_pushTypeIndex, post_pushSubmitterIndex, post_onSome,
    post_pure, eventTypeCount, post_load, post_store]
  intro ht ha _
  have h := h ht (by simpa [packedSubmitter] using ha)
  refine ⟨fun n hn => ?_, fun hn => ?_⟩
  · subst hn
    simpa [pushIndices, packedType, packedSubmitter, submitterTotal] using h
  · subst hn
    have hlen : (u32ToBytes i).length = 4 := rfl
    have hdiv : ((packedType s t).length + 4) / 4 = (packedType s t).length / 4 + 1 := by omega
    simpa [pushIndices, packedType, packedSubmitter, submitterTotal, hlen, hdiv] using h

/-- `indexBatch` increments the cached count. -/
theorem post_indexBatch {t : Symbol} {a : Address} {i : ℕ}
    (h : (packedType s t).length + 4 < 2 ^ 32 → (packedSubmitter s a).length + 4 < 2 ^ 32 →
      R () (pushIndices s t a i (cachedCount s t + 1))) :
    Post (indexBatch t a i) R env s := by
  simp only [indexBatch, post_bind, post_pushTypeIndex, post_pushSubmitterIndex, post_load,
    post_addChecked, post_store]
  intro ht ha _ _
  have h := h ht (by simpa [packedSubmitter] using ha)
  simpa [pushIndices, packedType, packedSubmitter, submitterTotal, cachedCount] using h

/-- Both paths skip the indices in low-cost mode. -/
theorem post_unlessLowCost {m : Fn D Unit} (h : lowCost s = false → Post m R env s)
    (hlow : lowCost s = true → R () s) :
    Post (effectiveLowCostMode >>= fun low => doIf (¬low) m) R env s := by
  simp only [effectiveLowCostMode, post_bind, post_load, post_pure, post_doIf]
  refine ⟨fun hl => h (by simpa [lowCost] using hl), fun hl => hlow (by simpa [lowCost] using hl)⟩

/-- Otherwise they push. -/
theorem post_indexed {t : Symbol} {a : Address} {i n : ℕ} {m : Fn D Unit}
    (h : ∀ R : Unit → State D → Prop, ((packedType s t).length + 4 < 2 ^ 32 →
      (packedSubmitter s a).length + 4 < 2 ^ 32 → R () (pushIndices s t a i n)) → Post m R env s) :
    Post (effectiveLowCostMode >>= fun low => doIf (¬low) m) (fun _ s' => Indexed s s' t a i n) env s :=
  post_unlessLowCost (fun hlow => h _ fun ht ha => indexed_pushIndices hlow ht ha)
    fun hlow => indexed_lowCost hlow

end

/-- What `placeEvent` stores. -/
def putEvent (s : State D) (id : D) (evt : Event D) : State D :=
  (((s.put .eventData id evt).put .eventOrder evt.index id).put
    .eventHeaderKey id ⟨evt.index, evt.timestamp, evt.eventType, evt.submitter⟩).put
    .eventMetadata id evt.metadata

theorem post_placeEvent {R : Unit → State D → Prop} {id : D} {evt : Event D} :
    Post (placeEvent id evt) R env s ↔ R () (putEvent s id evt) := by
  simp only [placeEvent, post_bind, post_store, putEvent]

/-- Storing and indexing an event, with other writes around. -/
theorem placedIn_of_indexed {id : D} {evt : Event D} {n : ℕ} (s₁ : State D) {s₂ : State D}
    (hput : ∀ f ∈ [DataKey.eventOrder, .eventData, .lowCostMode] ++ indexWrites,
      s₁.inst f = (putEvent s id evt).inst f)
    (hix : Indexed s₁ s₂ evt.eventType evt.submitter evt.index n)
    (ho : s₂.inst .eventOrder = s₁.inst .eventOrder) (hd : s₂.inst .eventData = s₁.inst .eventData) :
    PlacedIn s s₂ id evt n := by
  have hframe : Ledger.Frame (L := layout D)
      [.eventData, .eventOrder, .eventHeaderKey, .eventMetadata] s (putEvent s id evt) :=
    (((Ledger.frame_put (by simp)).trans (Ledger.frame_put (by simp))).trans
      (Ledger.frame_put (by simp))).trans (Ledger.frame_put (by simp))
  refine ⟨?_, ?_, hix.congr (fun f hf => ?_) fun _ _ => rfl⟩
  · rw [ho, hput _ (by simp)]; simp [putEvent]
  · rw [hd, hput _ (by simp)]; simp [putEvent]
  · rw [hput f (by simp at hf ⊢; tauto), hframe.inst_eq (apart_of_eval rfl) f hf]

/-- The event both paths build, for the position after the last. -/
theorem post_buildEvent {a : Address} {t : Symbol} {m : Bytes} {c : Symbol} {e : Option Symbol}
    {i : ℕ} {prev : D} :
    Post (buildEvent H a t m c e i prev)
      (fun q _ => Placed H i q ∧ q.2.prevHash = prev ∧
        q.2.eventHash = computeEventHash H q.1 q.2.prevHash i q.2.timestamp ∧
        q.2.record = ⟨env.timestamp, t, c, a, m⟩) env s := by
  simp only [buildEvent, currentContractVersion, post_bind, post_getEnv, post_load, post_pure]
  exact ⟨⟨⟨env, rfl⟩, rfl⟩, trivial, trivial, rfl⟩

/-- The content of `recordDedup`: the map of the policy, and no other. -/
structure DedupRecorded (policy : DedupPolicy) (contentHash : D) (index timestamp : ℕ) (s s' : State D) :
    Prop where
  byHash : s'.inst .eventContentHash =
    if policy = .contentHash then
      Function.update (s.inst .eventContentHash) contentHash (some index)
    else s.inst .eventContentHash
  byHashWithTs : s'.inst .eventContentHashWithTs =
    if policy = .contentHashWithTimestamp then
      Function.update (s.inst .eventContentHashWithTs) contentHash (some (index, timestamp))
    else s.inst .eventContentHashWithTs

theorem post_recordDedup {policy : DedupPolicy} {t : Symbol} {a : Address} {m : Bytes} {i ts : ℕ} :
    Post (recordDedup H policy t a m i ts)
      (fun _ s' => DedupRecorded policy (computeContentHash H env t a m) i ts s s') env s := by
  unfold recordDedup
  rw [post_bind, post_getEnv]
  cases policy with
  | none => exact post_pure.2 ⟨by simp, by simp⟩
  | contentHash => exact post_store.2 ⟨by simp, by simp⟩
  | contentHashWithTimestamp => exact post_store.2 ⟨by simp, by simp⟩
  | custom =>
    refine post_bind_reads fun key _ => ?_
    rw [post_ifSome]
    exact ⟨fun k _ => post_store.2 ⟨by simp, by simp⟩, fun _ => ⟨by simp, by simp⟩⟩

/-! ## The single path -/

/-- The arguments of the single path. -/
structure Submission where
  submitter : Address
  eventType : Symbol
  metadata : Bytes
  category : Option Symbol
  subEventType : Option Symbol
  force : Bool
  deriving DecidableEq

/-- The record a submission adds to the log. -/
def Submission.record (x : Submission) (now : ℕ) : Record :=
  ⟨now, x.eventType, x.category.getD "general", x.submitter, x.metadata⟩

/-- The hash the event at position `i` links to. -/
def prevHashAt (H : Host D) (s : State D) (i : ℕ) : D :=
  if i = 0 then H.zeros else ((eventAt s (i - 1)).map (·.eventHash)).getD H.zeros

theorem post_prevLink {i : ℕ} :
    Post (prevLink H i) (fun p _ => p.1 = prevHashAt H s i) env s := by
  simp only [prevLink, post_ite, post_pure, post_bind, post_load, post_unwrap]
  refine ⟨fun hi => by simp [prevHashAt, hi], fun hi id hid e he => ?_⟩
  rw [prevHashAt, if_neg hi, eventAt, hid, Option.bind_some, he]; rfl

theorem Holds.prevHashAt (h : Holds s L) {i : ℕ} (hi : i ≤ L.length) :
    prevHashAt H s i = hashBefore H L i := by
  obtain ⟨ts, hts⟩ := h.prevLink_run H ⟨0, 0, fun _ => true, fun _ => 0⟩ hi
  exact (post_prevLink.of_run hts).symm

/-- What the single path leaves when it stores the event `q` at position `i`. -/
structure Stored (H : Host D) (env : Env) (x : Submission) (policy : DedupPolicy) (n : ℕ)
    (s : State D) (i : ℕ) (q : Entry D) (s' : State D) : Prop where
  entry : Placed H i q
  link : q.2.prevHash = prevHashAt H s i
  hash : q.2.eventHash = computeEventHash H q.1 q.2.prevHash i q.2.timestamp
  bound : i + 1 < 2 ^ 32
  record : q.2.record = x.record env.timestamp
  placed : PlacedIn s s' q.1 q.2 n
  dedup : DedupRecorded policy (computeContentHash H env x.eventType x.submitter x.metadata)
    i env.timestamp s s'
  config : ∃ cfg, s.inst .config () = some cfg ∧ cfg.totalEvents = i ∧
    s'.inst .config () = some { cfg with totalEvents := i + 1 }
  runtime : s'.inst .runtimeState () =
    (s.inst .runtimeState ()).map fun rs => { rs with totalEvents := i + 1 }
  guard : s'.temporary .logEventReentrancyGuard () = none
  pending : s'.temporary .pendingCustomDedupKey () = none
  frame : s.Frame singleWrites s'

/-- The packed state gets the new total, and nothing else changes. -/
theorem post_syncTotalEvents {n : ℕ} :
    Post (syncTotalEvents n) (fun _ s' => s.Frame [DataKey.runtimeState] s' ∧
      s'.inst .runtimeState () =
        (s.inst .runtimeState ()).map fun rs => { rs with totalEvents := n }) env s := by
  simp only [syncTotalEvents, post_bind, post_load, post_ifSome, post_store]
  refine ⟨fun rs hrs => ⟨Ledger.frame_put (by simp), by simp [hrs]⟩, fun hrs => ⟨Ledger.frame_refl, ?_⟩⟩
  rw [hrs]; rfl

theorem post_appendSingle {x : Submission} {cfg : Config} {policy : DedupPolicy}
    {typeCount : Option ℕ} (hcfg : s.inst .config () = some cfg) :
    Post (appendSingle H x.submitter x.eventType x.metadata x.category x.subEventType cfg policy
        typeCount)
      (fun id s' => ∃ q, q.1 = id ∧ Stored H env x policy
        (typeCount.getD ((packedType s x.eventType).length / 4 + 1) + 1) s cfg.totalEvents q s')
      env s := by
  refine Post.with_frame (L := layout D) (W := appendWrites) ?_
  simp only [appendSingle, post_bind, post_getEnv, post_load, post_store, post_clearTemp, post_pure,
    post_addChecked]
  refine post_reads fun prev hprev => post_reads fun _ _ => post_reads fun q hbuild => ?_
  obtain ⟨hq, hlink, hhash, hrec⟩ := post_buildEvent.of_run hbuild
  have hty : q.2.eventType = x.eventType := congrArg Record.eventType hrec
  have hsub : q.2.submitter = x.submitter := congrArg Record.submitter hrec
  refine post_placeEvent.2 (Post.with_frame (L := layout D) (W := []) fun _ s₂ _ hf₂ => ?_)
  refine Post.with_frame (L := layout D)
    (W := [.eventContentHash, .eventContentHashWithTs, .eventCustomKey])
    (post_recordDedup.mono fun _ s₃ h₃ hf₃ => ?_)
  refine post_bind.1 (Post.with_frame (L := layout D) (W := indexWrites)
    ((post_indexed fun R h => post_indexSingle h).mono fun _ s₄ h₄ hf₄ hl => ?_))
  refine post_syncTotalEvents.mono fun _ s₅ h₅ => ?_
  refine Post.with_frame (L := layout D) (W := []) fun _ s₆ _ hf₆ hf => ⟨q, rfl, ?_⟩
  obtain ⟨hf₅, hruntime⟩ := h₅
  constructor
  · exact hq
  · rw [hlink]; exact post_prevLink.of_run hprev
  · exact hhash
  · exact hl
  · exact hrec
  · refine placedIn_of_indexed (s₃.delTemp .pendingCustomDedupKey ()) (fun f hf => ?_) ?_ ?_ ?_
    · rw [Ledger.delTemp_inst, hf₃.inst_eq (apart_of_eval rfl) f hf, hf₂.inst (notMem_of_eval rfl)]
    · have hpacked : packedType (s₃.delTemp .pendingCustomDedupKey ()) x.eventType =
          packedType s x.eventType := by
        simp [packedType, hf₃.inst, hf₂.inst, putEvent]
      rw [hty, hsub, hq.index_eq, ← hpacked]
      refine h₄.congr (fun _ _ => rfl) fun f hf => ?_
      rw [Ledger.delTemp_inst, hf₆.inst (notMem_of_eval rfl), hf₅.inst_eq (apart_of_eval rfl) f hf,
        Ledger.put_inst_ne _ (ne_of_mem_of_not_mem hf (by simp))]
    · simp [hf₆.inst, hf₅.inst, hf₄.inst, hf₃.inst]
    · simp [hf₆.inst, hf₅.inst, hf₄.inst, hf₃.inst]
  · refine ⟨?_, ?_⟩
    · simp [hf₆.inst, hf₅.inst, hf₄.inst, h₃.byHash, hf₂.inst, putEvent]
    · simp [hf₆.inst, hf₅.inst, hf₄.inst, h₃.byHashWithTs, hf₂.inst, putEvent]
  · exact ⟨cfg, hcfg, rfl, by simp [hf₆.inst, hf₅.inst]⟩
  · simp [hf₆.inst, hruntime, hf₄.inst, hf₃.inst, hf₂.inst, putEvent]
  · simp
  · simp [hf₆.temporary, hf₅.temporary, hf₄.temporary]
  · exact hf.mono fun _ hf' => List.mem_cons_of_mem _ hf'

/-- Charging the rate and setting the guard first makes no difference. -/
theorem Stored.of_charged {s₀ : State D} {x : Submission} {policy : DedupPolicy} {n i : ℕ}
    {q : Entry D} (hf : s₀.Frame [DataKey.submitterRateState, DataKey.logEventReentrancyGuard] s)
    (h : Stored H env x policy n s i q s') : Stored H env x policy n s₀ i q s' where
  entry := h.entry
  link := by
    rw [h.link, AuditLedger.prevHashAt, eventAt, hf.inst (notMem_of_eval rfl), hf.inst (notMem_of_eval rfl)]; rfl
  hash := h.hash
  bound := h.bound
  record := h.record
  placed := ⟨by rw [h.placed.order, hf.inst (notMem_of_eval rfl)], by rw [h.placed.data, hf.inst (notMem_of_eval rfl)],
    h.placed.indexed.congr (fun f hf' => (hf.inst_eq (apart_of_eval rfl) f hf').symm) fun _ _ => rfl⟩
  dedup := ⟨by rw [h.dedup.byHash, hf.inst (notMem_of_eval rfl)], by rw [h.dedup.byHashWithTs, hf.inst (notMem_of_eval rfl)]⟩
  config := by rw [← hf.inst (f := DataKey.config) (by simp)]; exact h.config
  runtime := by rw [h.runtime, hf.inst (notMem_of_eval rfl)]
  guard := h.guard
  pending := h.pending
  frame := (hf.mono (by simp)).trans h.frame

/-- Where `sha256` has no collisions, the stored event extends the log. -/
theorem Stored.inv (hinj : Function.Injective H.sha256) (h : LogInv H s L) {x : Submission}
    {policy : DedupPolicy} {n i : ℕ} {q : Entry D} (hst : Stored H env x policy n s i q s') :
    i = L.length ∧ LogInv H s' (L ++ [q]) := by
  obtain ⟨cfg, hcfg, hn, hcfg'⟩ := hst.config
  obtain ⟨c, hc, hcn⟩ := h.counted.config
  obtain ⟨rs, hrs, -⟩ := h.counted.runtime
  obtain rfl : cfg = c := Option.some.inj (hcfg.symm.trans hc)
  obtain rfl : i = L.length := hn.symm.trans hcn
  obtain ⟨hholds, hchain⟩ := hst.placed.extends hinj h.holds h.chain hst.entry
    (hst.link.trans (h.holds.prevHashAt le_rfl)) hst.hash hst.bound
  have hruntime := hst.runtime
  rw [hrs] at hruntime
  exact ⟨rfl, hholds, hchain, ⟨⟨_, hcfg', by simp⟩, ⟨_, hruntime, by simp⟩⟩,
    h.versions.append _ (hst.frame.inst (notMem_of_eval rfl)), by rw [hst.frame.inst (notMem_of_eval rfl)]; exact h.owned⟩

/-- What the single path has charged to the submitter at the time `now`. -/
def spent (s : State D) (a : Address) (now : ℕ) : ℕ :=
  let state := (s.inst .submitterRateState a).getD (0, 0)
  if now = state.1 then state.2 else 0

/-- One more event is charged to a submitter with a limit. -/
def charge (s : State D) (a : Address) (now : ℕ) : State D :=
  match s.inst .submitterRateLimit a with
  | none => s
  | some _ => s.put .submitterRateState a (now, spent s a now + 1)

theorem post_chargeRate {R : Unit → State D → Prop} {a : Address} :
    Post (chargeRate a) R env s ↔
      ((∀ l, s.inst .submitterRateLimit a = some l → spent s a env.timestamp < l) →
        R () (charge s a env.timestamp)) := by
  simp only [chargeRate, charge, spent, post_bind, post_load, post_ifSome, post_getEnv, post_ite,
    post_rejectIf, post_store]
  rcases s.inst .submitterRateLimit a with _ | l
  · simp
  · by_cases hnow : env.timestamp = ((s.inst .submitterRateState a).getD (0, 0)).1
    · simp [hnow]
    · simp [hnow, Nat.pos_iff_ne_zero]

theorem frame_charge (s : State D) (a : Address) (now : ℕ) :
    s.Frame [DataKey.submitterRateState] (charge s a now) := by
  unfold charge
  split
  · exact Ledger.frame_refl
  · exact Ledger.frame_put (by simp)

/-- The policy in effect for the type. -/
def policyOf (s : State D) (t : Symbol) : DedupPolicy :=
  ((s.inst .dedupPolicyConfigForType t).or (s.inst .dedupPolicyConfig ())).getD .contentHash

/-- The position of the event the submission duplicates, by the map of the policy. -/
def duplicateOf (H : Host D) (env : Env) (s : State D) (x : Submission) : Option ℕ :=
  let contentHash := computeContentHash H env x.eventType x.submitter x.metadata
  if x.force then none
  else match policyOf s x.eventType with
    | .none => none
    | .contentHash => s.inst .eventContentHash contentHash
    | .contentHashWithTimestamp =>
      (s.inst .eventContentHashWithTs contentHash).bind fun e =>
        if e.2 = env.timestamp then some e.1 else none
    | .custom => (s.temporary .pendingCustomDedupKey ()).bind (s.inst .eventCustomKey)

theorem searchDuplicate_run (x : Submission) :
    (searchDuplicate H x.force (policyOf s x.eventType) x.eventType x.submitter x.metadata).run env s =
      .ok (duplicateOf H env s x, s) := by
  unfold searchDuplicate duplicateOf
  rcases x.force
  · simp only [Bool.false_eq_true, if_false, findDuplicate]
    rw [run_bind_ok env s (run_getEnv env s)]
    rcases policyOf s x.eventType
    · rfl
    · rfl
    · rfl
    · have hkey : (pendingCustomKey : Fn D _).run env s =
          .ok (s.temporary .pendingCustomDedupKey (), s) := rfl
      simp only [run_bind_ok env s hkey]
      rcases s.temporary .pendingCustomDedupKey () with _ | key <;> rfl
  · rfl

/-- The cached count of the type after the single path has stored an event of it:
    one more than the index had with a cap, two more without. -/
def nextCount (s : State D) (t : Symbol) : ℕ :=
  ((capOf s t).map fun _ => (packedType s t).length / 4).getD ((packedType s t).length / 4 + 1) + 1

/-- **What a successful call of the single path does.** -/
structure Submitted (H : Host D) (env : Env) (x : Submission) (s : State D) (id : D) (s' : State D) :
    Prop where
  unguarded : s.temporary .logEventReentrancyGuard () = none
  admitted : ¬Gated s x.submitter
  rate : ∀ l, s.inst .submitterRateLimit x.submitter = some l → spent s x.submitter env.timestamp < l
  cap : ∀ c, capOf s x.eventType = some c → (packedType s x.eventType).length / 4 < c
  charged : s'.inst .submitterRateState =
    (charge s x.submitter env.timestamp).inst .submitterRateState
  outcome : (∃ k, duplicateOf H env s x = some k ∧ s.inst .eventOrder k = some id ∧
      s'.temporary .logEventReentrancyGuard () = some true ∧
      s.Frame [DataKey.submitterRateState, DataKey.logEventReentrancyGuard] s') ∨
    (duplicateOf H env s x = none ∧ ∃ i q, q.1 = id ∧
      Stored H env x (policyOf s x.eventType) (nextCount s x.eventType) s i q s')

theorem post_checkCap {t : Symbol} {R : Option ℕ → State D → Prop} :
    Post (checkCap t) R env s ↔
      ((∀ c, capOf s t = some c → (packedType s t).length / 4 < c) →
        R ((capOf s t).map fun _ => (packedType s t).length / 4) s) := by
  simp only [checkCap, eventTypeCount, post_bind, post_load, post_onSome, post_rejectIf, post_pure,
    capOf, packedType]
  rcases (s.inst .eventCapConfig t).join with _ | c
  · simp
  · simp

/-- The state the duplicate search and the append start from: the guard is set, and the
    event charged. -/
def begun (s : State D) (a : Address) (now : ℕ) : State D :=
  charge (s.putTemp .logEventReentrancyGuard () true) a now

theorem frame_begun (s : State D) (a : Address) (now : ℕ) :
    s.Frame [DataKey.submitterRateState, DataKey.logEventReentrancyGuard] (begun s a now) :=
  (Ledger.frame_putTemp (by simp)).trans ((frame_charge _ _ _).mono (by simp))

theorem begun_rateState (s : State D) (a : Address) (now : ℕ) :
    (begun s a now).inst .submitterRateState = (charge s a now).inst .submitterRateState := by
  rw [begun, charge, charge, Ledger.putTemp_inst]
  split <;> rfl

theorem begun_guard (s : State D) (a : Address) (now : ℕ) :
    (begun s a now).temporary .logEventReentrancyGuard () = some true := by
  rw [begun, (frame_charge _ _ _).temporary (by simp)]
  simp

/-- **The single path up to the duplicate search.** -/
theorem post_submission {x : Submission} {Q : D → State D → Prop}
    (h : s.temporary .logEventReentrancyGuard () = none → ¬Gated s x.submitter →
      (∀ l, s.inst .submitterRateLimit x.submitter = some l → spent s x.submitter env.timestamp < l) →
      (∀ c, capOf s x.eventType = some c → (packedType s x.eventType).length / 4 < c) →
      ∀ cfg, s.inst .config () = some cfg →
      Post (onSome (duplicateOf H env s x) (fun k => do unwrap (← get .eventOrder k))
        (appendSingle H x.submitter x.eventType x.metadata x.category x.subEventType cfg
          (policyOf s x.eventType)
          ((capOf s x.eventType).map fun _ => (packedType s x.eventType).length / 4))) Q env
        (begun s x.submitter env.timestamp)) :
    Post (logEventWithHierarchy H x.submitter x.eventType x.metadata x.category x.subEventType x.force)
      Q env s := by
  unfold logEventWithHierarchy
  refine post_bind_reads fun _ hinit => post_bind_reads fun _ _ => post_bind_reads fun _ _ => ?_
  obtain ⟨cfg, hcfg⟩ : ∃ cfg, s.inst .config () = some cfg := by
    have : Post (requireInitialized : Fn D Unit) (fun _ _ => (s.inst .config ()).isSome) env s := by
      simp only [requireInitialized, post_bind, post_load, post_rejectIf]
      intro hn
      rw [← Option.not_isNone, Bool.not_eq_true']
      exact Bool.eq_false_iff.2 (not_or.1 hn).2
    exact Option.isSome_iff_exists.1 (this.of_run hinit)
  simp only [enterGuard, validateEventType, post_bind, post_loadTemp, post_rejectIf, post_storeTemp,
    post_pure, post_checkAdmission, post_load, post_chargeRate, post_checkCap]
  intro hguard hgate
  refine post_reads fun rs _ hrate => post_reads fun _ _ _ => ?_
  have hunguarded : s.temporary .logEventReentrancyGuard () = none := by simpa using hguard
  have hf := frame_begun s x.submitter env.timestamp
  rw [← begun]
  generalize hs₁ : begun s x.submitter env.timestamp = s₁ at hf h ⊢
  have hcap : capOf s₁ x.eventType = capOf s x.eventType := by rw [capOf, hf.inst (notMem_of_eval rfl), capOf]
  have hpacked : packedType s₁ x.eventType = packedType s x.eventType := by
    rw [packedType, hf.inst (notMem_of_eval rfl), packedType]
  have hpolicy : policyOf s₁ x.eventType = policyOf s x.eventType := by
    rw [policyOf, hf.inst (notMem_of_eval rfl), hf.inst (notMem_of_eval rfl), policyOf]
  have hdup : duplicateOf H env s₁ x = duplicateOf H env s x := by
    rw [duplicateOf, hpolicy, hf.inst (notMem_of_eval rfl), hf.inst (notMem_of_eval rfl), hf.inst (notMem_of_eval rfl),
      hf.temporary (by simp), duplicateOf]
  rw [hcap, hpacked]
  refine fun hlt => post_reads fun policy hpol => ?_
  obtain rfl : policyOf s₁ x.eventType = policy := by
    have : (effectiveDedupPolicy x.eventType : Fn D _).run env s₁ =
      .ok (policyOf s₁ x.eventType, s₁) := rfl
    rw [this] at hpol; cases hpol; rfl
  refine (post_of_run (searchDuplicate_run x)).2 ?_
  rw [hdup, hpolicy, Ledger.putTemp_inst, hcfg, Option.getD_some]
  exact h hunguarded hgate hrate hlt cfg hcfg

theorem post_logEventWithHierarchy {x : Submission} :
    Post (logEventWithHierarchy H x.submitter x.eventType x.metadata x.category x.subEventType x.force)
      (fun id s' => Submitted H env x s id s') env s := by
  refine post_submission fun hunguarded hgate hrate hlt cfg hcfg => ?_
  have hf := frame_begun s x.submitter env.timestamp
  have hpacked : packedType (begun s x.submitter env.timestamp) x.eventType =
      packedType s x.eventType := by
    rw [packedType, hf.inst (notMem_of_eval rfl), packedType]
  refine post_onSome.2 ⟨fun k hk => ?_, fun hk => ?_⟩
  · simp only [post_bind, post_load, post_unwrap]
    intro id hid
    rw [hf.inst (notMem_of_eval rfl)] at hid
    exact ⟨hunguarded, hgate, hrate, hlt, begun_rateState .., Or.inl ⟨k, hk, hid, begun_guard .., hf⟩⟩
  · refine Post.with_frame (L := layout D) (W := appendWrites) ((post_appendSingle
      (by rw [hf.inst (notMem_of_eval rfl), hcfg])).mono ?_)
    rintro id s' ⟨q, hq, hst⟩ hf'
    refine ⟨hunguarded, hgate, hrate, hlt, by rw [hf'.inst (notMem_of_eval rfl), begun_rateState],
      Or.inr ⟨hk, cfg.totalEvents, q, hq, ?_⟩⟩
    rw [hpacked] at hst
    exact hst.of_charged hf

/-! ## The batch path -/

/-- The record an item of a batch adds to the log. -/
def itemRecord (now : ℕ) (item : Address × Symbol × Bytes) : Record :=
  ⟨now, item.2.1, "general", item.1, item.2.2⟩

/-- What the checks of `log_events` let pass: every submitter with a limit keeps
    to it, and every type with a cap, counting the whole batch. -/
structure BatchChecked (s : State D) (now : ℕ) (items : List (Address × Symbol × Bytes)) : Prop where
  rate : ∃ counts, Tallied (s.inst .submitterRateLimit) (spent s · now) (items.map (·.1)) counts
  cap : ∃ counts, Tallied (capOf s) (fun t => (packedType s t).length / 4) (items.map (·.2.1)) counts

/-- The rate check of one item. -/
theorem post_checkBatchRate {counts : List (Address × ℕ)} {keys : List Address} {a : Address}
    (h : Tallied (s.inst .submitterRateLimit) (spent s · env.timestamp) keys counts) :
    Post (checkBatchRate counts a)
      (fun counts' _ =>
        Tallied (s.inst .submitterRateLimit) (spent s · env.timestamp) (keys ++ [a]) counts') env s := by
  simp only [checkBatchRate, incrementAddressCount, post_bind, post_load, post_onSome, post_getEnv,
    post_ite, post_addChecked, post_pure]
  refine ⟨fun l hl => ⟨fun hnow _ => post_rejectIf.2 fun hle => ?_, fun hnow =>
    post_rejectIf.2 fun hle => ?_⟩, h.skip⟩
  · rw [incrementCount_snd] at hle
    exact h.increment hl (by simp only [spent, if_pos hnow]; omega)
  · rw [incrementCount_snd] at hle
    exact h.increment hl (by simp only [spent, if_neg hnow]; omega)

/-- The cap check of one item. -/
theorem post_checkBatchCap {counts : List (Symbol × ℕ)} {keys : List Symbol} {t : Symbol}
    (h : Tallied (capOf s) (fun t => (packedType s t).length / 4) keys counts) :
    Post (checkBatchCap counts t)
      (fun counts' _ =>
        Tallied (capOf s) (fun t => (packedType s t).length / 4) (keys ++ [t]) counts') env s := by
  simp only [checkBatchCap, eventTypeCount, incrementSymbolCount, post_bind, post_load,
    post_onSome, post_addChecked, post_rejectIf, post_pure]
  refine ⟨fun c hc _ hle => h.increment hc ?_, h.skip⟩
  rw [incrementCount_snd] at hle
  rw [packedType]; omega

/-- **The checking loop.** -/
theorem post_checkBatch {items : List (Address × Symbol × Bytes)} :
    Post (items.foldlM checkBatchItem ⟨[], [], []⟩)
      (fun _ _ => BatchChecked s env.timestamp items) env s := by
  let I (done : List (Address × Symbol × Bytes)) (acc : BatchCounts) (t : State D) : Prop :=
    t = s ∧
    Tallied (s.inst .submitterRateLimit) (spent s · env.timestamp) (done.map (·.1))
      acc.submitterBatchCounts ∧
    Tallied (capOf s) (fun t => (packedType s t).length / 4) (done.map (·.2.1)) acc.typeBatchCounts
  refine (post_foldlM I items _ s [] ⟨rfl, .nil, .nil⟩ ?_).mono
    fun acc _ h => ⟨⟨_, h.2.1⟩, ⟨_, h.2.2⟩⟩
  rintro done item rest acc t - ⟨rfl, hsub, htyp⟩
  simp only [checkBatchItem, post_bind, post_pure]
  refine post_reads fun _ _ => post_reads fun _ _ => ?_
  refine post_reads fun subs hsubs => post_reads fun typs htyps => ⟨rfl, ?_, ?_⟩
  · rw [List.map_append]; exact (post_checkBatchRate hsub).of_run hsubs
  · rw [List.map_append]; exact (post_checkBatchCap htyp).of_run htyps

/-- The records `rs`, from position `n` on, have been entered in the indices; in
    low-cost mode, none has. -/
structure Entered (s s' : State D) (n : ℕ) (rs : List Record) : Prop where
  typeIndex : ∀ t, packedType s' t = packedType s t ++
    if lowCost s then [] else (rs.findIdxs (·.eventType = t) n).flatMap u32ToBytes
  submitterIndex : ∀ a, packedSubmitter s' a = packedSubmitter s a ++
    if lowCost s then [] else (rs.findIdxs (·.submitter = a) n).flatMap u32ToBytes
  submitterTotal : ∀ a, submitterTotal s' a = submitterTotal s a +
    if lowCost s then 0 else rs.countP (·.submitter = a)
  typeBound : ∀ t, (packedType s t).length < 2 ^ 32 → (packedType s' t).length < 2 ^ 32
  submitterBound : ∀ a, (packedSubmitter s a).length < 2 ^ 32 → (packedSubmitter s' a).length < 2 ^ 32

theorem Indexed.entered {r : Record} {n i : ℕ} (h : Indexed s s' r.eventType r.submitter i n) :
    Entered s s' i [r] := by
  have hlen : (u32ToBytes i).length = 4 := rfl
  refine ⟨fun t => ?_, fun a => ?_, fun a => ?_, fun t ht => ?_, fun a ha => ?_⟩
  · rw [h.typeIndex]
    rcases lowCost s <;> by_cases ht : r.eventType = t <;> simp [ht]
  · rw [h.submitterIndex]
    rcases lowCost s <;> by_cases ha : r.submitter = a <;> simp [ha]
  · rw [h.submitterTotal]
    rcases lowCost s <;> by_cases ha : r.submitter = a <;> simp [ha]
  · rw [h.typeIndex]
    split_ifs with hc
    · have := (h.bounded hc.1).1
      rw [hc.2] at this
      rw [List.length_append, hlen]; omega
    · simpa using ht
  · rw [h.submitterIndex]
    split_ifs with hc
    · have := (h.bounded hc.1).2
      rw [hc.2] at this
      rw [List.length_append, hlen]; omega
    · simpa using ha

theorem entered_nil {n : ℕ} (h : ∀ f ∈ indexWrites, s'.inst f = s.inst f) : Entered s s' n [] := by
  constructor <;> intro _ <;>
    simp [packedType, packedSubmitter, submitterTotal, h .eventTypeIndices, h .submitterEventIndices,
      h .submitterEventCount]

theorem Entered.trans {s'' : State D} {n k : ℕ} {rs rs' : List Record} (h : Entered s s' n rs)
    (h' : Entered s' s'' k rs') (hk : k = n + rs.length) (hlow : lowCost s' = lowCost s) :
    Entered s s'' n (rs ++ rs') := by
  subst hk
  refine ⟨fun t => ?_, fun a => ?_, fun a => ?_, fun t ht => h'.typeBound t (h.typeBound t ht),
    fun a ha => h'.submitterBound a (h.submitterBound a ha)⟩
  · rw [h'.typeIndex, h.typeIndex, hlow, List.findIdxs_append]
    split_ifs <;> simp
  · rw [h'.submitterIndex, h.submitterIndex, hlow, List.findIdxs_append]
    split_ifs <;> simp
  · rw [h'.submitterTotal, h.submitterTotal, hlow, List.countP_append]
    split_ifs <;> omega

/-- One round of the storing loop. -/
theorem post_appendBatchItem (hinj : Function.Injective H.sha256) (hh : Holds s L) (hc : Chain H L)
    {acc : BatchTail D} {item : Address × Symbol × Bytes} (hn : acc.currentTotal = L.length)
    (hp : acc.prevHash = hashBefore H L L.length) (hl : L.length + 1 < 2 ^ 32) :
    Post (appendBatchItem H acc item)
      (fun acc' s' => ∃ q, Holds s' (L ++ [q]) ∧ Chain H (L ++ [q]) ∧
        q.2.record = itemRecord env.timestamp item ∧
        Indexed s s' item.2.1 item.1 L.length (cachedCount s item.2.1 + 1) ∧
        acc'.currentTotal = L.length + 1 ∧ acc'.prevHash = hashBefore H (L ++ [q]) (L.length + 1))
      env s := by
  simp only [appendBatchItem, hn, hp, post_bind, post_pure]
  refine post_reads fun q hbuild => ?_
  obtain ⟨hq, hprev, hhash, hrec⟩ := post_buildEvent.of_run hbuild
  have hty : q.2.eventType = item.2.1 := congrArg Record.eventType hrec
  have hsub : q.2.submitter = item.1 := congrArg Record.submitter hrec
  refine post_placeEvent.2 (post_bind.1 (Post.with_frame (L := layout D) (W := indexWrites)
    ((post_indexed fun R h => post_indexBatch h).mono fun _ s₂ h₂ hf₂ => ?_)))
  refine Post.with_frame (L := layout D) (W := []) fun _ s₃ _ hf₃ => ?_
  have hcount : cachedCount (putEvent s q.1 q.2) item.2.1 = cachedCount s item.2.1 := by
    simp [cachedCount, putEvent]
  rw [hcount] at h₂
  have hplaced : PlacedIn s s₃ q.1 q.2 (cachedCount s item.2.1 + 1) := by
    refine placedIn_of_indexed (putEvent s q.1 q.2) (fun _ _ => rfl) ?_ ?_ ?_
    · rw [hty, hsub, hq.index_eq]
      exact h₂.congr (fun _ _ => rfl) fun f _ => hf₃.inst (notMem_of_eval rfl)
    · rw [hf₃.inst (notMem_of_eval rfl), hf₂.inst (notMem_of_eval rfl)]
    · rw [hf₃.inst (notMem_of_eval rfl), hf₂.inst (notMem_of_eval rfl)]
  obtain ⟨hholds, hchain⟩ := hplaced.extends hinj hh hc hq hprev hhash hl
  refine ⟨q, hholds, hchain, hrec, ?_, trivial, ?_⟩
  · have := hplaced.indexed
    rwa [hty, hsub, hq.index_eq] at this
  · rw [hashBefore, List.take_of_length_le (by simp), Linking.tail_append]; rfl

/-- What the batch path leaves. -/
structure Batched (H : Host D) (env : Env) (items : List (Address × Symbol × Bytes)) (s : State D)
    (L : List (Entry D)) (M : List (Entry D)) (s' : State D) : Prop where
  inv : LogInv H s' (L ++ M)
  records : records M = items.map (itemRecord env.timestamp)
  entered : Entered s s' L.length (items.map (itemRecord env.timestamp))
  cachedCount : ∀ t, cachedCount s' t = cachedCount s t +
    if lowCost s then 0 else items.countP (·.2.1 = t)
  checked : BatchChecked s env.timestamp items
  runtime : ∃ rs, s.inst .runtimeState () = some rs ∧ rs.paused = false ∧
    s'.inst .config () = some ⟨rs.globalMaxLogs, L.length + items.length⟩ ∧
    s'.inst .runtimeState () = some { rs with totalEvents := L.length + items.length }
  frame : s.Frame batchWrites s'

/-- **The storing loop.** -/
theorem post_storeBatch (hinj : Function.Injective H.sha256) (hh : Holds s L) (hc : Chain H L)
    {items : List (Address × Symbol × Bytes)} (hl : L.length + items.length < 2 ^ 32) :
    Post (items.foldlM (appendBatchItem H) ⟨L.length, hashBefore H L L.length, []⟩)
      (fun acc s' => ∃ M, Holds s' (L ++ M) ∧ Chain H (L ++ M) ∧
        records M = items.map (itemRecord env.timestamp) ∧
        Entered s s' L.length (items.map (itemRecord env.timestamp)) ∧
        (∀ t, cachedCount s' t = cachedCount s t +
          if lowCost s then 0 else items.countP (·.2.1 = t)) ∧
        acc.currentTotal = L.length + items.length) env s := by
  let I (done : List (Address × Symbol × Bytes)) (acc : BatchTail D) (t : State D) : Prop :=
    ∃ M, Holds t (L ++ M) ∧ Chain H (L ++ M) ∧ records M = done.map (itemRecord env.timestamp) ∧
      Entered s t L.length (done.map (itemRecord env.timestamp)) ∧
      (∀ y, cachedCount t y = cachedCount s y +
        if lowCost s then 0 else done.countP (·.2.1 = y)) ∧
      acc.currentTotal = (L ++ M).length ∧ acc.prevHash = hashBefore H (L ++ M) (L ++ M).length ∧
      s.Frame itemWrites t
  have h₀ : I [] ⟨L.length, hashBefore H L L.length, []⟩ s := by
    refine ⟨[], by simpa using hh, by simpa using hc, rfl, entered_nil fun _ _ => rfl, by simp,
      by simp, by simp, Ledger.frame_refl⟩
  have hlen : ∀ {M : List (Entry D)} {l : List (Address × Symbol × Bytes)},
      records M = l.map (itemRecord env.timestamp) → M.length = l.length := by
    intro M l h; simpa [records] using congrArg List.length h
  refine (post_foldlM I items _ s [] h₀ ?_).mono ?_
  · rintro done item rest acc t hsplit ⟨M, hM, hcM, hrec, hent, hcnt, htot, hprev, hf⟩
    have hpre : done.length + 1 ≤ items.length := by
      rw [List.nil_append] at hsplit
      rw [hsplit, List.length_append, List.length_cons]; omega
    have hlow : lowCost t = lowCost s := by rw [lowCost, hf.inst (notMem_of_eval rfl), lowCost]
    refine Post.with_frame (L := layout D) (W := itemWrites) ((post_appendBatchItem hinj hM hcM htot
      hprev (by rw [List.length_append, hlen hrec]; omega)).mono ?_)
    rintro acc' t' ⟨q, hq, hcq, hqr, hix, htot', hprev'⟩ hf'
    have hLM : (L ++ M).length = L.length + (done.map (itemRecord env.timestamp)).length := by
      rw [List.length_append, hlen hrec, List.length_map]
    refine ⟨M ++ [q], ?_, ?_, ?_, ?_, fun y => ?_, ?_, ?_, hf.trans hf'⟩
    · rwa [← List.append_assoc]
    · rwa [← List.append_assoc]
    · simp only [records, List.map_append, List.map_cons, List.map_nil] at hrec ⊢
      rw [hrec, hqr]
    · rw [List.map_append]
      exact hent.trans (Indexed.entered (r := itemRecord env.timestamp item) hix) hLM hlow
    · rw [hix.cachedCount, hlow, List.countP_append, List.countP_singleton]
      by_cases hy : item.2.1 = y
      · subst hy
        rw [hcnt]
        rcases lowCost s <;> simp [Nat.add_assoc]
      · simpa [hy] using hcnt y
    · rw [htot', ← List.append_assoc, @List.length_append _ (L ++ M)]; rfl
    · rw [hprev', ← List.append_assoc, @List.length_append _ (L ++ M)]; rfl
  · rintro acc s' ⟨M, hM, hcM, hrec, hent, hcnt, htot, -, -⟩
    exact ⟨M, hM, hcM, hrec, hent, hcnt, by rw [htot, List.length_append, hlen hrec]; rfl⟩

/-- **What a successful call of the batch path does.** -/
theorem post_logEvents (hinj : Function.Injective H.sha256) (h : LogInv H s L)
    {items : List (Address × Symbol × Bytes)} :
    Post (logEvents H items) (fun _ s' => ∃ M, Batched H env items s L M s') env s := by
  obtain ⟨rs, hrs, hn⟩ := h.counted.runtime
  refine Post.with_frame (L := layout D) (W := batchWrites) ?_
  unfold logEvents
  refine post_bind_reads fun _ _ => post_bind_reads fun rs' hrs' => ?_
  obtain rfl : rs = rs' := by
    simp only [readRuntimeStateBatch, run_bind, run_load, hrs, onSome, Except.bind, run_pure,
      Except.ok.injEq, Prod.mk.injEq] at hrs'
    exact hrs'.1
  rw [hn]
  refine post_bind.2 (post_rejectIf.2 fun hpaused => post_bind.2 (post_rejectIf.2 fun hmax => ?_))
  refine post_bind_reads fun _ hchk => post_bind_reads fun prev hprev => ?_
  obtain ⟨ts, hts⟩ := h.holds.prevLink_run H env le_rfl
  obtain rfl : (hashBefore H L L.length, ts) = prev := by rw [hts] at hprev; cases hprev; rfl
  rw [post_bind]
  refine Post.with_frame (L := layout D) (W := itemWrites)
    ((post_storeBatch hinj h.holds h.chain (by omega)).mono ?_)
  rintro acc s₁ ⟨M, hM, hcM, hrec, hent, hcnt, htot⟩ hf₁
  have hrs₁ : s₁.inst .runtimeState () = some rs := by rw [hf₁.inst (notMem_of_eval rfl), hrs]
  simp only [syncTotalEvents, post_bind, post_load, post_store, post_ifSome, post_pure]
  refine ⟨fun rs' hrs' hf => ⟨M, ?_⟩, fun hrs' => by simp [hrs₁] at hrs'⟩
  obtain rfl : rs = rs' := by simpa [hrs₁] using hrs'
  rw [htot] at hf ⊢
  have hput : Ledger.Frame (L := layout D) [.config, .runtimeState] s₁
      ((s₁.put .config () ⟨rs.globalMaxLogs, L.length + items.length⟩).put .runtimeState ()
        { rs with totalEvents := L.length + items.length }) :=
    (Ledger.frame_put (by simp)).trans (Ledger.frame_put (by simp))
  have hlen : (L ++ M).length = L.length + items.length := by
    have := congrArg List.length hrec
    rw [records, List.length_map, List.length_map] at this
    rw [List.length_append, this]
  constructor
  · refine ⟨hM.of_eq (hput.inst (notMem_of_eval rfl)) (hput.inst (notMem_of_eval rfl)), hcM, ?_,
      h.versions.append _ (hf.inst (notMem_of_eval rfl)), by rw [hf.inst (notMem_of_eval rfl)]; exact h.owned⟩
    rw [hlen]
    exact ⟨⟨⟨rs.globalMaxLogs, _⟩, by simp, rfl⟩, ⟨{ rs with totalEvents := _ }, by simp, rfl⟩⟩
  · exact hrec
  · have := hent.trans (entered_nil (n := L.length + _) (hput.inst_eq (apart_of_eval rfl))) rfl
      (by rw [lowCost, hf₁.inst (notMem_of_eval rfl), lowCost])
    rwa [List.append_nil] at this
  · intro t
    rw [← hcnt, cachedCount, hput.inst (notMem_of_eval rfl), cachedCount]
  · exact post_checkBatch.of_run hchk
  · exact ⟨rs, hrs, by simpa using hpaused, by simp, by simp⟩
  · exact hf

end AuditLedger
