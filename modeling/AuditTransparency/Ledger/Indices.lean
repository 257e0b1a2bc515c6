/-
  AuditLedger — the indices of types and submitters.

  The positions of the events of a type are packed in one `Bytes` value, four bytes
  each, and so are those of a submitter.  Both write paths append to them, except in
  low-cost mode, and `compact_storage` can remove the index of a type.

  * `step_entered`: a call other than `compact_storage` enters what it logs;
  * `history_indices`: without low-cost mode and compaction the indices are exact, and
    the queries return what they say;
  * `history_counts`: the counters of a type agree when every single event of it was
    logged under a cap.
-/
import AuditTransparency.Ledger.Refinement
import Mathlib.Data.List.Induction

namespace AuditLedger

open Soroban
open Soroban.Call hiding hasPers publish

variable {D : Type} [DecidableEq D] {H : Host D} {env : Env} {s s' : State D} {op : Op D}
  {R : List Record} {r : Ret D}

/-! ## Packed positions -/

theorem wordAt_run {b : Bytes} {k : ℕ} (hk : k * 4 + 4 ≤ b.length) (hb : b.length < 2 ^ 32) :
    ∃ w, (words b)[k]? = some w ∧ (wordAt (some b) k : Fn D ℕ).run env s = .ok (w, s) := by
  obtain ⟨b0, b1, b2, b3, h0, h1, h2, h3, hw⟩ := words_get b k hk
  refine ⟨_, hw, ?_⟩
  have hunwrap : (unwrapOr (some b) .eventTypeIndexOutOfBounds : Fn D Bytes).run env s =
      .ok (b, s) := rfl
  have hmul : k * 4 < 2 ^ 32 := by omega
  have hadd : k * 4 + 4 < 2 ^ 32 := by omega
  have hrej : (rejectIf (k * 4 + 4 > b.length) .eventTypeIndexOutOfBounds : Fn D Unit).run env s =
      .ok ((), s) := by
    rw [run_rejectIf, if_neg (by omega)]
  rw [wordAt, run_bind_ok _ _ hunwrap, run_bind_ok _ _ (run_mulChecked _ _ hmul),
    run_bind_ok _ _ (run_addChecked _ _ hadd), run_bind_ok _ _ hrej, h0, h1, h2, h3]
  rfl

/-- The words of a packed list. -/
theorem wordAt_packed {packed : Bytes} {is : List ℕ} {k i : ℕ} (hp : packed = is.flatMap u32ToBytes)
    (hlt : ∀ i ∈ is, i < 2 ^ 32) (hb : packed.length < 2 ^ 32) (hi : is[k]? = some i) :
    (wordAt (some packed) k : Fn D ℕ).run env s = .ok (i, s) := by
  have hlen : packed.length = 4 * is.length := by rw [hp, length_flatMap_u32ToBytes]
  have hk := (List.getElem?_eq_some_iff.1 hi).1
  obtain ⟨w, hw, hrun⟩ : ∃ w, (words packed)[k]? = some w ∧
      (wordAt (some packed) k : Fn D ℕ).run env s = .ok (w, s) := wordAt_run (by omega) hb
  obtain rfl : w = i := by
    rw [hp, words_flatMap_u32ToBytes hlt, hi] at hw
    exact (Option.some.inj hw).symm
  exact hrun

/-! ## Positions -/

/-- The positions below `n` of the events with `q`, in order. -/
def positions (s : State D) (n : ℕ) (q : Record → Bool) : List ℕ :=
  (List.range n).filter fun i => (eventAt s i).any fun e => q e.record

theorem filter_range_eq_findIdxs {α : Type} (l : List α) (q : α → Bool) :
    (List.range l.length).filter (fun i => l[i]?.any q) = l.findIdxs q := by
  induction l using List.reverseRecOn with
  | nil => rfl
  | append_singleton l a ih =>
    have hold : (List.range l.length).filter (fun i => (l ++ [a])[i]?.any q) = l.findIdxs q := by
      rw [← ih]
      refine List.filter_congr fun i hi => ?_
      rw [List.getElem?_append_left (List.mem_range.1 hi)]
    rw [List.length_append, List.length_singleton, List.range_succ, List.filter_append, hold,
      List.findIdxs_append]
    congr 1
    by_cases hq : q a <;> simp [hq]

theorem HasLog.positions (h : HasLog H s R) (q : Record → Bool) :
    positions s R.length q = R.findIdxs q := by
  rw [← filter_range_eq_findIdxs, AuditLedger.positions]
  refine List.filter_congr fun i _ => ?_
  rw [← h.eventAt, Option.any_map]

/-! ## What a call enters -/

/-- Amendments move no event between the indices. -/
theorem findIdxs_amendAll (R : List Record) (l : List (ℕ × Bytes)) {q : Record → Bool}
    (hq : ∀ r, q r.core = q r) : (amendAll R l).findIdxs q = R.findIdxs q := by
  have hcomp : q ∘ Record.core = q := funext hq
  rw [← hcomp, ← List.findIdxs_map, map_core_amendAll, List.findIdxs_map]

theorem countP_amendAll (R : List Record) (l : List (ℕ × Bytes)) {q : Record → Bool}
    (hq : ∀ r, q r.core = q r) : (amendAll R l).countP q = R.countP q := by
  rw [← List.length_findIdxs (s := 0), findIdxs_amendAll R l hq, List.length_findIdxs]

theorem adds_of_not_logging (hx : op.submission = none) (hb : op.batch = []) : op.adds H env s = [] := by
  rw [Op.adds, hx, hb]; rfl

/-- **A call enters what it logs**, unless it compacts. -/
theorem step_entered (hinj : Function.Injective H.sha256) (hlog : HasLog H s R)
    (hs : Step H env op s r s') (hop : ∀ a l, op ≠ .compactStorage a l) :
    Entered s s' R.length (op.adds H env s) := by
  obtain ⟨L, hL, rfl⟩ := hlog
  rw [records, List.length_map]
  rcases hx : op.submission with _ | x
  · have framed : op.batch = [] → (∀ f ∈ indexWrites, f ∉ op.writes) →
        Entered s s' L.length (op.adds H env s) := fun hb hf => by
      rw [adds_of_not_logging hx hb]
      exact entered_nil (((exec_writes H op).of_run hs).inst_eq hf)
    cases op with
    | logEvent | logEventWithNonce | logEventSigned | logEventWithCustomKey | logOperationalAction =>
      cases hx
    | logEvents items =>
      have key : Post (exec H (.logEvents items)) (fun _ s' => ∃ M, Batched H env items s L M s')
          env s := by
        simp only [exec, post_bind, post_pure]
        exact post_logEvents hinj hL
      obtain ⟨M, hM⟩ := key.of_run hs
      exact hM.entered
    | setEventMaxLogs a t n =>
      rw [adds_of_not_logging hx rfl]
      have key : Post (exec H (.setEventMaxLogs a t n)) (fun _ s' => Entered s s' L.length []) env s := by
        simp only [exec, setEventMaxLogs, validateEventType, effectiveLowCostMode, post_bind, post_pure,
          post_store, post_clear, post_load, post_doIf]
        refine post_reads fun _ _ => ⟨fun hc => ?_, fun _ => ?_⟩
        · -- the cap has just been set
          simp at hc
        · exact entered_nil (by simp)
      exact key.of_run hs
    | compactStorage a l => exact absurd rfl (hop a l)
    | _ => exact framed rfl (apart_of_eval rfl)
  · obtain ⟨id, s₁, hsub, -, hf, -⟩ := step_submitted hx hs
    have hafter : ∀ f ∈ indexWrites, s'.inst f = s₁.inst f := hf.inst_eq (apart_of_eval rfl)
    have henter : LogInv H (op.enter s) L := hL.of_eq fun _ _ => by rw [Op.enter_inst]
    simp only [Op.adds, hx]
    rcases hsub.outcome with ⟨k, hk, -, -, hf₁⟩ | ⟨hk, i, q, -, hst⟩
    · rw [hk, Option.isSome_some, if_pos rfl]
      refine entered_nil fun f hmem => ?_
      rw [hafter f hmem, hf₁.inst_eq (apart_of_eval rfl) f hmem, Op.enter_inst]
    · rw [hk, Option.isSome_none, if_neg (by simp)]
      have hi := (hst.inv hinj henter).1
      have hix : Indexed s s' _ _ _ _ :=
        hst.placed.indexed.congr (fun f _ => by rw [Op.enter_inst]) hafter
      have hty : q.2.eventType = (x.record env.timestamp).eventType :=
        congrArg Record.eventType hst.record
      have hsm : q.2.submitter = (x.record env.timestamp).submitter :=
        congrArg Record.submitter hst.record
      rw [hty, hsm, hst.entry.index_eq, hi] at hix
      exact hix.entered

/-! ## Exact indices -/

/-- The indices are those of the log `R`. -/
structure IndexedBy (s : State D) (R : List Record) : Prop where
  typeIndex : ∀ t, packedType s t = (R.findIdxs (·.eventType = t)).flatMap u32ToBytes
  submitterIndex : ∀ a, packedSubmitter s a = (R.findIdxs (·.submitter = a)).flatMap u32ToBytes
  submitterTotal : ∀ a, submitterTotal s a = R.countP (·.submitter = a)
  typeBound : ∀ t, (packedType s t).length < 2 ^ 32
  submitterBound : ∀ a, (packedSubmitter s a).length < 2 ^ 32

/-- What a call enters, outside of low-cost mode, keeps the indices exact. -/
theorem IndexedBy.entered (h : IndexedBy s R) (l : List (ℕ × Bytes)) {A : List Record}
    (hlow : lowCost s = false) (he : Entered s s' R.length A) : IndexedBy s' (amendAll R l ++ A) := by
  refine ⟨fun t => ?_, fun a => ?_, fun a => ?_, fun t => he.typeBound t (h.typeBound t),
    fun a => he.submitterBound a (h.submitterBound a)⟩
  · rw [he.typeIndex, h.typeIndex, hlow, List.findIdxs_append, findIdxs_amendAll R l fun _ => rfl,
      length_amendAll, List.flatMap_append]
    simp
  · rw [he.submitterIndex, h.submitterIndex, hlow, List.findIdxs_append,
      findIdxs_amendAll R l fun _ => rfl, length_amendAll, List.flatMap_append]
    simp
  · rw [he.submitterTotal, h.submitterTotal, hlow, List.countP_append, countP_amendAll R l fun _ => rfl]
    simp

/-- The call neither turns low-cost mode on nor compacts. -/
def Op.keepsIndices : Op D → Bool
  | .setLowCostMode _ enabled => !enabled
  | .compactStorage .. => false
  | _ => true

theorem step_lowCost (hop : op.keepsIndices = true) (hlow : lowCost s = false)
    (hs : Step H env op s r s') : lowCost s' = false := by
  have framed : DataKey.lowCostMode ∉ op.writes → lowCost s' = false := fun hf => by
    rw [lowCost, ((exec_writes H op).of_run hs).inst hf]; exact hlow
  cases op with
  | setLowCostMode a b =>
    obtain rfl : b = false := by simpa [Op.keepsIndices] using hop
    have key : Post (exec H (.setLowCostMode a false)) (fun _ s' => lowCost s' = false) env s := by
      simp only [exec, setLowCostMode, syncRuntimeState, post_bind, post_pure, post_store, post_load,
        post_ifSome]
      exact post_reads fun _ _ => ⟨fun _ _ => by simp [lowCost], fun _ => by simp [lowCost]⟩
    exact key.of_run hs
  | _ => exact framed (notMem_of_eval rfl)

/-- The step neither turns low-cost mode on nor compacts. -/
def Action.keepsIndices : Action D → Bool
  | .call _ op => op.keepsIndices
  | _ => true

theorem Initialized.indexedBy {g m : ℕ} (h : Initialized s g m) : IndexedBy s [] := by
  have ht : ∀ t, packedType s t = [] := fun t => by
    rw [packedType, (h.absent (f := .eventTypeIndices) (by simp) t).1]; rfl
  have ha : ∀ a, packedSubmitter s a = [] := fun a => by
    rw [packedSubmitter, (h.absent (f := .submitterEventIndices) (by simp) a).1]; rfl
  refine ⟨ht, ha, fun a => ?_, fun t => by rw [ht]; decide, fun a => by rw [ha]; decide⟩
  rw [AuditLedger.submitterTotal, (h.absent (f := .submitterEventCount) (by simp) a).1]; rfl

/-- Without low-cost mode and compaction the indices are those of the log. -/
theorem indexedBy_of_history (hinj : Function.Injective H.sha256) {tr : List (State D × Action D)}
    (h : History H tr s) (hop : ∀ p ∈ tr, p.2.keepsIndices = true) :
    lowCost s = false ∧ ∃ R, HasLog H s R ∧ IndexedBy s R := by
  obtain ⟨s₀, h₀, hrun⟩ := h
  obtain ⟨g, m, hinit⟩ := initialized_of_init h₀
  have hlow₀ : lowCost s₀ = false := by
    rw [lowCost, (hinit.absent (f := .lowCostMode) (by simp) ()).1]; rfl
  refine hrun.invariant (C := fun _ a => a.keepsIndices = true)
    (I := fun s => lowCost s = false ∧ ∃ R, HasLog H s R ∧ IndexedBy s R)
    ⟨hlow₀, [], hinit.hasLog, hinit.indexedBy⟩ ?_ hop
  rintro s a s' ha hn ⟨hlow, R, hlog, hix⟩
  have hlog' := next_hasLog hinj hlog hn
  cases a with
  | call env op =>
    obtain ⟨r, hs⟩ := hn
    have hne : ∀ a l, op ≠ .compactStorage a l := fun a l e => by rw [e] at ha; cases ha
    exact ⟨step_lowCost ha hlow hs, _, hlog', hix.entered _ hlow (step_entered hinj hlog hs hne)⟩
  | expireTemporary f k =>
    rw [Next] at hn
    refine ⟨hn ▸ hlow, R, hlog', ?_⟩
    subst hn
    exact ⟨hix.typeIndex, hix.submitterIndex, hix.submitterTotal, hix.typeBound, hix.submitterBound⟩
  | expirePersistent f k =>
    rw [Next] at hn
    refine ⟨hn ▸ hlow, R, hlog', ?_⟩
    subst hn
    exact ⟨hix.typeIndex, hix.submitterIndex, hix.submitterTotal, hix.typeBound, hix.submitterBound⟩

/-! ## Queries -/

/-- An index is exact: it decodes to the positions below `n` of the events with `q`, and
    its count and its query answer accordingly. -/
structure IndexExact (s : State D) (n : ℕ) (q : Record → Bool) (packed : Bytes) (count : Fn D ℕ)
    (query : ℕ → Fn D (Event D)) : Prop where
  aligned : 4 ∣ packed.length
  decoded : words packed = positions s n q
  increasing : (words packed).Pairwise (· < ·)
  counted : ∀ env, count.run env s = .ok ((positions s n q).length, s)
  found : ∀ env k i, (positions s n q)[k]? = some i →
    ∃ e, eventAt s i = some e ∧ (query k).run env s = .ok (e, s)
  missing : ∀ env k, (positions s n q).length ≤ k → ∃ err, (query k).run env s = .error err

section
variable {L : List (Entry D)} {q : Record → Bool} {packed : Bytes}

/-- Packed positions decode to the positions. -/
theorem LogInv.decoded (h : LogInv H s L)
    (hp : packed = ((records L).findIdxs q).flatMap u32ToBytes) :
    packed.length = 4 * (positions s L.length q).length ∧ words packed = positions s L.length q := by
  have hlen : (records L).length = L.length := List.length_map ..
  have hpos : positions s L.length q = (records L).findIdxs q := by
    rw [← hlen]; exact HasLog.positions ⟨L, h, rfl⟩ q
  have hlt : ∀ i ∈ (records L).findIdxs q, i < 2 ^ 32 := fun i hi => by
    have := List.lt_add_of_mem_findIdxs i hi
    have := h.chain.length_lt
    omega
  rw [hpos, hp]
  exact ⟨length_flatMap_u32ToBytes _, words_flatMap_u32ToBytes hlt⟩

/-- An event is stored at every position. -/
theorem LogInv.exists_of_positions (h : LogInv H s L) {k i : ℕ} (hi : (positions s L.length q)[k]? = some i) :
    ∃ p, L[i]? = some p ∧ eventAt s i = some p.2 := by
  have hlt : i < L.length := List.mem_range.1 (List.mem_of_mem_filter (List.mem_of_getElem? hi))
  exact ⟨L[i], List.getElem?_eq_getElem hlt, by rw [h.holds.eventAt_eq, List.getElem?_eq_getElem hlt]; rfl⟩

/-- The positions are packed. -/
theorem LogInv.packed_positions (h : LogInv H s L)
    (hp : packed = ((records L).findIdxs q).flatMap u32ToBytes) :
    packed = (positions s L.length q).flatMap u32ToBytes ∧ ∀ i ∈ positions s L.length q, i < 2 ^ 32 := by
  have hlen : (records L).length = L.length := List.length_map ..
  refine ⟨by rw [hp, ← hlen, HasLog.positions ⟨L, h, rfl⟩ q], fun i hi => ?_⟩
  have := List.mem_range.1 (List.mem_of_mem_filter hi)
  have := h.chain.length_lt
  omega

/-- An index is exact when its packed positions are, and its count and query read them. -/
theorem LogInv.indexExact (h : LogInv H s L)
    (hp : packed = ((records L).findIdxs q).flatMap u32ToBytes) {count : Fn D ℕ}
    {query : ℕ → Fn D (Event D)}
    (hcount : ∀ env, count.run env s = .ok ((positions s L.length q).length, s))
    (hfound : ∀ env k i p, (positions s L.length q)[k]? = some i → L[i]? = some p →
      (query k).run env s = .ok (p.2, s))
    (hmissing : ∀ env k, (positions s L.length q).length ≤ k → ∃ err, (query k).run env s = .error err) :
    IndexExact s L.length q packed count query := by
  obtain ⟨hlen, hwords⟩ := h.decoded hp
  refine ⟨⟨_, hlen⟩, hwords, ?_, hcount, fun env k i hi => ?_, hmissing⟩
  · rw [hwords]; exact List.Pairwise.filter _ List.pairwise_lt_range
  · obtain ⟨p, hp, he⟩ := h.exists_of_positions hi
    exact ⟨p.2, he, hfound env k i p hi hp⟩

theorem run_pass {c : Prop} [Decidable c] (hc : ¬c) (e : ContractError) :
    (rejectIf c e : Fn D Unit).run env s = .ok ((), s) := by rw [run_rejectIf, if_neg hc]

theorem effectiveLowCostMode_run : (effectiveLowCostMode : Fn D Bool).run env s = .ok (lowCost s, s) := rfl

theorem submitterCount_run (a : Address) :
    (submitterCount a : Fn D ℕ).run env s = .ok (submitterTotal s a, s) := rfl

section
variable {is : List ℕ} {k i : ℕ} {p : Entry D}

theorem eventTypeCount_run {t : Symbol} (hp : packedType s t = is.flatMap u32ToBytes) :
    (eventTypeCount t : Fn D ℕ).run env s = .ok (is.length, s) := by
  have hlen : (packedType s t).length = 4 * is.length := by rw [hp, length_flatMap_u32ToBytes]
  rw [show is.length = (packedType s t).length / 4 by omega]
  rfl

/-- **The query of a type** reads the event at the packed position. -/
theorem LogInv.getEventByType_run {t : Symbol} (h : LogInv H s L) (hlow : lowCost s = false)
    (hp : packedType s t = is.flatMap u32ToBytes) (hlt : ∀ i ∈ is, i < 2 ^ 32)
    (hb : (packedType s t).length < 2 ^ 32) (hk : is[k]? = some i) (hi : L[i]? = some p) :
    (getEventByType t k).run env s = .ok (p.2, s) := by
  have hlen := (List.getElem?_eq_some_iff.1 hk).1
  have hmode : (effectiveLowCostMode : Fn D Bool).run env s = .ok (false, s) := by
    rw [effectiveLowCostMode_run, hlow]
  have hkey : s.inst .eventTypeIndices t = some (packedType s t) := by
    rcases hx : s.inst .eventTypeIndices t with _ | b
    · have := congrArg List.length hp
      rw [packedType, hx, length_flatMap_u32ToBytes, Option.getD_none, List.length_nil] at this
      omega
    · rw [packedType, hx]; rfl
  have hindex : (getTypeIndex t k : Fn D ℕ).run env s = .ok (i, s) := by
    rw [getTypeIndex, run_bind_ok _ _ (run_load ..), hkey, wordAt_packed hp hlt hb hk]
  rw [getEventByType, run_bind_ok _ _ h.requireInitialized_run, run_bind_ok _ _ hmode,
    run_bind_ok _ _ (run_pass (by simp) _), run_bind_ok _ _ (eventTypeCount_run hp),
    run_bind_ok _ _ (run_pass (by omega) _), run_bind_ok _ _ (run_pass (by omega) _),
    run_bind_ok _ _ hindex, h.fetch_run hi]

/-- **The query of a submitter** reads the event at the packed position. -/
theorem LogInv.getEventBySubmitter_run {a : Address} (h : LogInv H s L)
    (hp : packedSubmitter s a = is.flatMap u32ToBytes) (hlt : ∀ i ∈ is, i < 2 ^ 32)
    (hb : (packedSubmitter s a).length < 2 ^ 32) (hn : submitterTotal s a = is.length)
    (hk : is[k]? = some i) (hi : L[i]? = some p) :
    (getEventBySubmitter a k).run env s = .ok (p.2, s) := by
  have hlen := (List.getElem?_eq_some_iff.1 hk).1
  have hkey : s.inst .submitterEventIndices a = some (packedSubmitter s a) := by
    rcases hx : s.inst .submitterEventIndices a with _ | b
    · have := congrArg List.length hp
      rw [packedSubmitter, hx, length_flatMap_u32ToBytes, Option.getD_none, List.length_nil] at this
      omega
    · rw [packedSubmitter, hx]; rfl
  have hindex : (getSubmitterIndex a k : Fn D ℕ).run env s = .ok (i, s) := by
    rw [getSubmitterIndex, run_bind_ok _ _ (run_load ..), hkey, wordAt_packed hp hlt hb hk]
  rw [getEventBySubmitter, run_bind_ok _ _ h.requireInitialized_run,
    run_bind_ok _ _ (submitterCount_run a), run_bind_ok _ _ (run_pass (by omega) _),
    run_bind_ok _ _ (run_pass (by omega) _), run_bind_ok _ _ hindex, h.fetch_run hi]

end

/-- The index of a type. -/
theorem IndexedBy.typeExact (h : IndexedBy s (records L)) (hL : LogInv H s L)
    (hlow : lowCost s = false) (t : Symbol) :
    IndexExact s L.length (·.eventType = t) (packedType s t) (eventCount t) (getEventByType t) := by
  obtain ⟨hpos, hlt⟩ := hL.packed_positions (h.typeIndex t)
  have hmode : ∀ env, (effectiveLowCostMode : Fn D Bool).run env s = .ok (false, s) := fun env => by
    rw [effectiveLowCostMode_run, hlow]
  refine hL.indexExact (h.typeIndex t) (fun env => ?_) (fun env k i p hk hp => ?_) fun env k hk => ?_
  · rw [eventCount, run_bind_ok _ _ hL.requireInitialized_run, run_bind_ok _ _ (hmode env),
      run_bind_ok _ _ (run_pass (by simp) _), eventTypeCount_run hpos]
  · exact hL.getEventByType_run hlow hpos hlt (h.typeBound t) hk hp
  · rw [getEventByType, run_bind_ok _ _ hL.requireInitialized_run, run_bind_ok _ _ (hmode env),
      run_bind_ok _ _ (run_pass (by simp) _), run_bind_ok _ _ (eventTypeCount_run hpos)]
    by_cases h0 : (positions s L.length (·.eventType = t)).length = 0
    · exact ⟨_, run_bind_error _ _ (by rw [run_rejectIf, if_pos h0]) _⟩
    · rw [run_bind_ok _ _ (run_pass h0 _)]
      exact ⟨_, run_bind_error _ _ (by rw [run_rejectIf, if_pos hk]) _⟩

/-- The index of a submitter. -/
theorem IndexedBy.submitterExact (h : IndexedBy s (records L)) (hL : LogInv H s L) (a : Address) :
    IndexExact s L.length (·.submitter = a) (packedSubmitter s a) (submitterEventCount a)
      (getEventBySubmitter a) := by
  obtain ⟨hpos, hlt⟩ := hL.packed_positions (h.submitterIndex a)
  have htotal : AuditLedger.submitterTotal s a = (positions s L.length (·.submitter = a)).length := by
    have hpos : positions s L.length (·.submitter = a) = (records L).findIdxs (·.submitter = a) := by
      have hlength : L.length = (records L).length := by simp [records]
      rw [hlength]
      exact HasLog.positions ⟨L, hL, rfl⟩ _
    rw [h.submitterTotal, hpos, List.length_findIdxs]
  have hcount : ∀ env, (submitterCount a : Fn D ℕ).run env s =
      .ok ((positions s L.length (·.submitter = a)).length, s) := fun env => by
    rw [submitterCount_run, htotal]
  refine hL.indexExact (h.submitterIndex a) (fun env => ?_) (fun env k i p hk hp => ?_) fun env k hk => ?_
  · rw [submitterEventCount, run_bind_ok _ _ hL.requireInitialized_run, hcount]
  · exact hL.getEventBySubmitter_run hpos hlt (h.submitterBound a) htotal hk hp
  · rw [getEventBySubmitter, run_bind_ok _ _ hL.requireInitialized_run, run_bind_ok _ _ (hcount env)]
    by_cases h0 : (positions s L.length (·.submitter = a)).length = 0
    · exact ⟨_, run_bind_error _ _ (by rw [run_rejectIf, if_pos h0]) _⟩
    · rw [run_bind_ok _ _ (run_pass h0 _)]
      exact ⟨_, run_bind_error _ _ (by rw [run_rejectIf, if_pos hk]) _⟩

end

/-- **The indices are exact** in every run without low-cost mode and compaction. -/
theorem history_indices (hinj : Function.Injective H.sha256) {tr : List (State D × Action D)}
    (h : History H tr s) (hop : ∀ p ∈ tr, p.2.keepsIndices = true) :
    ∃ n, (∀ env, (totalEvents : Fn D ℕ).run env s = .ok (n, s)) ∧
      (∀ t, IndexExact s n (·.eventType = t) (packedType s t) (eventCount t) (getEventByType t)) ∧
      ∀ a, IndexExact s n (·.submitter = a) (packedSubmitter s a) (submitterEventCount a)
        (getEventBySubmitter a) := by
  obtain ⟨hlow, R, ⟨L, hL, rfl⟩, hix⟩ := indexedBy_of_history hinj h hop
  exact ⟨L.length, fun env => hL.totalEvents_run, fun t => hix.typeExact hL hlow t,
    fun a => hix.submitterExact hL a⟩

/-- Both write paths, and an update between them. -/
def indexedScript : List (Env × Op Bytes) :=
  [(openEnv 11, .logEvent (account 66) "a" [1] none none false),
    (openEnv 12, .logEvents [(account 66, "b", [2]), (account 67, "a", [3])]),
    (openEnv 13, .updateEvent (account 65) 0 [7]),
    (openEnv 14, .logEvent (account 66) "a" [4] none none false)]

theorem history_indices_indexedScript : ∃ s, Reachable plainHost s ∧
    positions s 4 (·.eventType = "a") = [0, 2, 3] ∧
    words (packedType s "a") = positions s 4 (·.eventType = "a") := by
  let s₀ : State Bytes := deployed (openEnv 10) (account 65) 100 50
  obtain ⟨s, hs⟩ : ∃ s, play plainHost s₀ indexedScript = some s :=
    Option.isSome_iff_exists.1 (by decide +kernel)
  have hop : (traceOf plainHost s₀ indexedScript).all (fun p => p.2.keepsIndices) = true := by
    decide +kernel
  let view (s : State Bytes) : List ℕ × Option ℕ :=
    (positions s 4 (·.eventType = "a"), ((totalEvents : Fn Bytes ℕ).run (openEnv 15) s).toOption.map (·.1))
  have hview : (play plainHost s₀ indexedScript).map view = some ([0, 2, 3], some 4) := by
    decide +kernel
  rw [hs] at hview
  simp only [view, Option.map_some, Option.some.injEq, Prod.mk.injEq] at hview
  obtain ⟨hpos, htot⟩ := hview
  have hist := history_of_play (init_deployed rfl 100 50) hs
  obtain ⟨n, htotal, htype, -⟩ := history_indices Function.injective_id hist
    (List.all_eq_true.1 hop)
  obtain rfl : n = 4 := by
    rw [htotal] at htot
    exact Option.some.inj htot
  exact ⟨s, ⟨_, hist⟩, hpos, (htype "a").decoded⟩

/-! ## Counters -/

/-- What a call does to the cached count of a type: the single path replaces it, a
    batch adds to it. -/
theorem step_cachedCount (hinj : Function.Injective H.sha256) (hlog : HasLog H s R)
    (hlow : lowCost s = false) (hs : Step H env op s r s') (t : Symbol) :
    cachedCount s' t = match op.submission with
      | some x => if (duplicateOf H env (op.enter s) x).isNone ∧ x.eventType = t then nextCount s t
        else cachedCount s t
      | none => cachedCount s t + op.batch.countP (·.2.1 = t) := by
  obtain ⟨L, hL, rfl⟩ := hlog
  rcases hx : op.submission with _ | x
  · have framed : op.batch = [] → DataKey.eventTypeCount ∉ op.writes →
        cachedCount s' t = cachedCount s t + op.batch.countP (·.2.1 = t) := fun hb hf => by
      rw [hb, cachedCount, ((exec_writes H op).of_run hs).inst hf]; rfl
    cases op with
    | logEvent | logEventWithNonce | logEventSigned | logEventWithCustomKey | logOperationalAction =>
      cases hx
    | logEvents items =>
      have key : Post (exec H (.logEvents items)) (fun _ s' => ∃ M, Batched H env items s L M s')
          env s := by
        simp only [exec, post_bind, post_pure]
        exact post_logEvents hinj hL
      obtain ⟨M, hM⟩ := key.of_run hs
      simp only [hM.cachedCount, hlow, Op.batch]
      rfl
    | _ => exact framed rfl (notMem_of_eval rfl)
  · obtain ⟨id, s₁, hsub, -, hf, -⟩ := step_submitted hx hs
    have hafter : cachedCount s' t = cachedCount s₁ t := by
      rw [cachedCount, hf.inst (notMem_of_eval rfl), cachedCount]
    rw [hafter]
    rcases hsub.outcome with ⟨k, hk, -, -, hf₁⟩ | ⟨hk, i, q, -, hst⟩
    · simp only [hk, Option.isNone_some, Bool.false_eq_true, false_and, if_false]
      rw [cachedCount, hf₁.inst (notMem_of_eval rfl), Op.enter_inst, cachedCount]
    · have hty : q.2.eventType = x.eventType := congrArg Record.eventType hst.record
      have hlow' : lowCost (op.enter s) = false := by rw [lowCost, Op.enter_inst]; exact hlow
      have hnext : nextCount (op.enter s) x.eventType = nextCount s x.eventType := by
        simp only [nextCount, capOf, packedType, Op.enter_inst]
      have hcached : cachedCount (op.enter s) t = cachedCount s t := by
        rw [cachedCount, Op.enter_inst, cachedCount]
      rw [hst.placed.indexed.cachedCount, hlow', hty, hnext, hcached]
      simp only [hk, Option.isNone_none, true_and]
      by_cases ht : x.eventType = t
      · rw [if_pos ht, if_pos ht, ht]
      · rw [if_neg ht, if_neg ht]

/-- The loop of the statistics counts the events of every type. -/
theorem LogInv.countEvents_run {L : List (Entry D)} (h : LogInv H s L) (env : Env) (now : ℕ) :
    ∀ (n i : ℕ) (stats : ContractStatistics), i + n ≤ L.length →
      ∃ stats', ((List.range' i n).foldlM (countEvent now) stats : Fn D _).run env s = .ok (stats', s) ∧
        ∀ t, countOf stats'.eventsByType t = countOf stats.eventsByType t +
          (((records L).drop i).take n).countP (·.eventType = t)
  | 0, _, stats, _ => ⟨stats, rfl, by simp⟩
  | n + 1, i, stats, hn => by
    have hi : i < L.length := by omega
    have hp : L[i]? = some L[i] := List.getElem?_eq_getElem hi
    obtain ⟨stats₁, hrun₁, hcount₁⟩ : ∃ stats₁, (countEvent now stats i : Fn D _).run env s =
        .ok (stats₁, s) ∧ stats₁.eventsByType = incrementTypeCount stats.eventsByType L[i].2.eventType := by
      rw [countEvent, run_bind_ok _ _ (run_load ..), h.holds.get_order hp,
        run_bind_ok _ _ (run_unwrap_some ..), run_bind_ok _ _ (run_load ..), h.holds.get_data hp,
        run_bind_ok _ _ (run_unwrap_some ..)]
      exact ⟨_, rfl, rfl⟩
    obtain ⟨stats', hrun, hcount⟩ := countEvents_run h env now n (i + 1) stats₁ (by omega)
    refine ⟨stats', by rw [List.range'_succ, List.foldlM_cons, run_bind_ok _ _ hrun₁, hrun], fun t => ?_⟩
    have hdrop : (records L).drop i = L[i].2.record :: (records L).drop (i + 1) := by
      rw [List.drop_eq_getElem_cons (by simpa [records] using hi)]
      simp [records]
    rw [hcount, hcount₁, incrementTypeCount, countOf_incrementCount, hdrop, List.take_succ_cons,
      List.countP_cons]
    by_cases ht : L[i].2.eventType = t
    · simp [Event.record, ht]; omega
    · simp [Event.record, ht]

/-- The statistics list the number of events of every type. -/
theorem LogInv.collectStatistics_run {L : List (Entry D)} (h : LogInv H s L) (env : Env) :
    ∃ stats, (collectStatistics : Fn D _).run env s = .ok (stats, s) ∧
      ∀ t, countOf stats.eventsByType t = (records L).countP (·.eventType = t) := by
  obtain ⟨c, hc, hn⟩ := h.counted.config
  obtain ⟨stats, hrun, hcount⟩ := h.countEvents_run env env.timestamp L.length 0
    ⟨L.length, [], 0, 0, 0, []⟩ (by omega)
  refine ⟨stats, ?_, fun t => ?_⟩
  · rw [collectStatistics, run_bind_ok _ _ (run_load ..), run_bind_ok _ _ (run_getEnv ..), hc]
    simp only [Option.map_some, Option.getD_some, hn, List.range_eq_range']
    exact hrun
  · rw [hcount, List.drop_zero, List.take_of_length_le (by simp [records])]
    simp [countOf]

/-- **The counters of a type agree**: the cached count, the length of the index and the
    statistics are the number of its events. -/
structure CountsAgree (s : State D) (n : ℕ) (t : Symbol) : Prop where
  cached : ∀ env, (getEventTypeCount t : Fn D ℕ).run env s =
    .ok ((positions s n (·.eventType = t)).length, s)
  index : ∀ env, (eventCount t : Fn D ℕ).run env s = .ok ((positions s n (·.eventType = t)).length, s)
  collected : ∀ env, ∃ stats, (collectStatistics : Fn D _).run env s = .ok (stats, s) ∧
    countOf stats.eventsByType t = (positions s n (·.eventType = t)).length
  statistics : ∀ env caller stats s', (getStatistics caller : Fn D _).run env s = .ok (stats, s') →
    countOf stats.eventsByType t = (positions s n (·.eventType = t)).length

/-- With exact indices the counters agree when the cached one is right. -/
theorem IndexedBy.countsAgree_iff {L : List (Entry D)} (h : IndexedBy s (records L)) (hL : LogInv H s L)
    (hlow : lowCost s = false) (t : Symbol) :
    CountsAgree s L.length t ↔ cachedCount s t = (records L).countP (·.eventType = t) := by
  have hcount : (positions s L.length (·.eventType = t)).length =
      (records L).countP (·.eventType = t) := by
    have hlength : L.length = (records L).length := by simp [records]
    rw [hlength, HasLog.positions ⟨L, hL, rfl⟩, List.length_findIdxs]
  have hcached : ∀ env, (getEventTypeCount t : Fn D ℕ).run env s = .ok (cachedCount s t, s) :=
    fun _ => rfl
  refine ⟨fun hc => ?_, fun hc => ⟨fun env => ?_, ?_, fun env => ?_, fun env a stats s' hrun => ?_⟩⟩
  · have := hc.cached ⟨0, 0, fun _ => true, fun _ => 0⟩
    rw [hcached, hcount] at this
    exact (Prod.mk.inj (Except.ok.inj this)).1
  · rw [hcached, hc, hcount]
  · exact (h.typeExact hL hlow t).counted
  · obtain ⟨stats, hrun, hstats⟩ := hL.collectStatistics_run env
    exact ⟨stats, hrun, by rw [hstats, hcount]⟩
  · obtain ⟨stats₁, hrun₁, hstats⟩ := hL.collectStatistics_run env
    have key : Post (getStatistics a) (fun stats _ => stats = stats₁) env s := by
      simp only [getStatistics, post_bind, post_requireAuth]
      exact post_reads fun _ _ _ => post_reads fun _ _ => (post_of_run hrun₁).2 rfl
    rw [key.of_run hrun, hstats, hcount]

/-- The step stores an event of the type through the single path, without a cap. -/
def Action.miscounts (H : Host D) (s : State D) (t : Symbol) : Action D → Bool
  | .call env op => match op.submission with
    | some x => x.eventType = t ∧ (duplicateOf H env (op.enter s) x).isNone ∧ capOf s t = none
    | none => false
  | _ => false

/-- One step keeps the cached count right, or miscounts. -/
theorem next_cachedCount (hinj : Function.Injective H.sha256) {a : Action D} {t : Symbol}
    (hlog : HasLog H s R) (hix : IndexedBy s R) (hlow : lowCost s = false) (hn : Next H s a s')
    (hc : cachedCount s t = R.countP (·.eventType = t)) :
    cachedCount s' t = (a.logAfter H s R).countP (·.eventType = t) ↔ a.miscounts H s t = false := by
  cases a with
  | call env op =>
    obtain ⟨r, hs⟩ := hn
    have hamend : (amendAll R (op.amends env s)).countP (·.eventType = t) =
        R.countP (·.eventType = t) := by
      rw [← List.length_findIdxs (s := 0), findIdxs_amendAll R _ fun _ => rfl, List.length_findIdxs]
    have hlen : (packedType s t).length / 4 = R.countP (·.eventType = t) := by
      rw [hix.typeIndex, length_flatMap_u32ToBytes, List.length_findIdxs]; omega
    rw [step_cachedCount hinj hlog hlow hs, Action.logAfter, List.countP_append, hamend, Op.adds,
      Action.miscounts]
    rcases op.submission with _ | x
    · simp only [hc, List.countP_map]
      exact iff_of_true (by rfl) trivial
    · rcases hd : duplicateOf H env (op.enter s) x with _ | k
      · by_cases ht : x.eventType = t
        · rcases hcap : capOf s t with _ | c
          · simp [hd, ht, nextCount, hcap, hlen, Submission.record]
          · simp [hd, ht, nextCount, hcap, hlen, Submission.record]
        · simp [hd, ht, hc, Submission.record]
      · simp [hd, hc]
  | expireTemporary f k => rw [Next] at hn; subst hn; exact iff_of_true hc rfl
  | expirePersistent f k => rw [Next] at hn; subst hn; exact iff_of_true hc rfl

/-- **The counters of a type agree in every state of a run exactly when no step
    miscounts**, without low-cost mode and compaction. -/
theorem history_counts (hinj : Function.Injective H.sha256) {tr : List (State D × Action D)}
    {t : Symbol} (h : History H tr s) (hop : ∀ p ∈ tr, p.2.keepsIndices = true) :
    ((∀ p ∈ tr, CountsAgree p.1 (runtimeTotal p.1) t) ∧ CountsAgree s (runtimeTotal s) t) ↔
      ∀ p ∈ tr, p.2.miscounts H p.1 t = false := by
  obtain ⟨s₀, h₀, hrun⟩ := h
  obtain ⟨g, m, hinit⟩ := initialized_of_init h₀
  -- in a state with exact indices
  have hiff : ∀ {s : State D} {R : List Record}, HasLog H s R → IndexedBy s R → lowCost s = false →
      (CountsAgree s (runtimeTotal s) t ↔ cachedCount s t = R.countP (·.eventType = t)) := by
    rintro s R ⟨L, hL, rfl⟩ hix hlow
    rw [hL.runtimeTotal_eq]; exact hix.countsAgree_iff hL hlow t
  induction hrun with
  | init =>
    have hlow : lowCost s₀ = false := by
      rw [lowCost, (hinit.absent (f := .lowCostMode) (by simp) ()).1]; rfl
    have hcached : cachedCount s₀ t = 0 := by
      rw [cachedCount, (hinit.absent (f := .eventTypeCount) (by simp) t).1]; rfl
    simp [(hiff hinit.hasLog hinit.indexedBy hlow).2 hcached]
  | @snoc tr s s' a hr hn ih =>
    have hop' : ∀ p ∈ tr, p.2.keepsIndices = true := fun p hp => hop p (List.mem_append_left _ hp)
    obtain ⟨hlow, R, hlog, hix⟩ := indexedBy_of_history hinj ⟨s₀, h₀, hr⟩ hop'
    obtain ⟨hlow', R', hlog', hix'⟩ := indexedBy_of_history hinj ⟨s₀, h₀, .snoc hr hn⟩ hop
    obtain rfl : R' = a.logAfter H s R := hlog'.unique (next_hasLog hinj hlog hn)
    have hstep : CountsAgree s (runtimeTotal s) t →
        (CountsAgree s' (runtimeTotal s') t ↔ a.miscounts H s t = false) := fun hc => by
      rw [hiff hlog' hix' hlow']
      exact next_cachedCount hinj hlog hix hlow hn ((hiff hlog hix hlow).1 hc)
    simp only [List.forall_mem_append, List.forall_mem_singleton, ← ih hop']
    constructor
    · rintro ⟨⟨htr, hc⟩, hc'⟩
      exact ⟨⟨htr, hc⟩, (hstep hc).1 hc'⟩
    · rintro ⟨⟨htr, hc⟩, hm⟩
      exact ⟨⟨htr, hc⟩, (hstep hc).2 hm⟩

/-- Single events under a cap, and a batch. -/
def cappedScript : List (Env × Op Bytes) :=
  [(openEnv 11, .setEventMaxLogs (account 65) "a" 10),
    (openEnv 12, .logEvent (account 66) "a" [1] none none false),
    (openEnv 13, .logEvents [(account 66, "a", [2]), (account 67, "b", [3])])]

theorem history_counts_cappedScript : ∃ s, Reachable plainHost s ∧ cachedCount s "a" = 2 ∧
    CountsAgree s (runtimeTotal s) "a" := by
  let s₀ : State Bytes := deployed (openEnv 10) (account 65) 100 50
  obtain ⟨s, hs⟩ : ∃ s, play plainHost s₀ cappedScript = some s :=
    Option.isSome_iff_exists.1 (by decide +kernel)
  have hop : (traceOf plainHost s₀ cappedScript).all (fun p => p.2.keepsIndices) = true := by
    decide +kernel
  have hcounts : (traceOf plainHost s₀ cappedScript).all
      (fun p => p.2.miscounts plainHost p.1 "a" = false) = true := by decide +kernel
  have hcached : (play plainHost s₀ cappedScript).map (cachedCount · "a") = some 2 := by
    decide +kernel
  rw [hs] at hcached
  have hist := history_of_play (init_deployed rfl 100 50) hs
  refine ⟨s, ⟨_, hist⟩, Option.some.inj hcached,
    ((history_counts Function.injective_id hist (List.all_eq_true.1 hop)).2 fun p hp => ?_).2⟩
  exact of_decide_eq_true (List.all_eq_true.1 hcounts p hp)

/-- Without a cap, the cached count after one event is two. -/
theorem uncapped_miscounted : ∃ s, Reachable plainHost s ∧
    ((getEventTypeCount "a" : Fn Bytes ℕ).run (openEnv 12) s).toOption.map (·.1) = some 2 ∧
    ((eventCount "a" : Fn Bytes ℕ).run (openEnv 12) s).toOption.map (·.1) = some 1 ∧
    positions s (runtimeTotal s) (·.eventType = "a") = [0] := by
  let s₀ : State Bytes := deployed (openEnv 10) (account 65) 100 50
  let script : List (Env × Op Bytes) :=
    [(openEnv 11, .logEvent (account 66) "a" [1] none none false)]
  obtain ⟨s, hs⟩ : ∃ s, play plainHost s₀ script = some s :=
    Option.isSome_iff_exists.1 (by decide)
  let view (s : State Bytes) : Option ℕ × Option ℕ × List ℕ :=
    (((getEventTypeCount "a" : Fn Bytes ℕ).run (openEnv 12) s).toOption.map (·.1),
      ((eventCount "a" : Fn Bytes ℕ).run (openEnv 12) s).toOption.map (·.1),
      positions s (runtimeTotal s) (·.eventType = "a"))
  have hview : (play plainHost s₀ script).map view = some (some 2, some 1, [0]) := by decide +kernel
  rw [hs] at hview
  simp only [view, Option.map_some, Option.some.injEq, Prod.mk.injEq] at hview
  exact ⟨s, ⟨_, history_of_play (init_deployed rfl 100 50) hs⟩, hview⟩

end AuditLedger
