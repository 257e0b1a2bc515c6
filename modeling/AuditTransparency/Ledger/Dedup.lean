/-
  AuditLedger — deduplication.

  The dedup maps record the position of an event under the hash of its content.
  They are written when the event is logged and are not touched when its metadata is
  amended, so an amendment can leave an entry that points to other content.

  * `DedupSound` is the invariant of the maps, and `step_dedupSound` says that every
    call keeps it that amends no recorded event (`Op.respectsDedup`);
  * `history_dedup`: in a run of such calls, deduplication returns an event with the
    content that was submitted;
  * `new_event_swallowed`: after an update it returns an event with other content.
-/
import AuditTransparency.Ledger.Refinement
import Mathlib.Tactic.IntervalCases

namespace AuditLedger

open Soroban
open Soroban.Call hiding hasPers publish

variable {D : Type} [DecidableEq D] {H : Host D} {env env' : Env} {s s' : State D} {op : Op D}
  {R : List Record} {r : Ret D}

/-! ## The maps -/

/-- The content hash of a record. -/
def contentHash (H : Host D) (env : Env) (r : Record) : D :=
  computeContentHash H env r.eventType r.submitter r.metadata

/-- **The maps record content.**  An entry of `EventContentHash` points to a record
    with that content; so does an entry of `EventContentHashWithTs` of the current
    ledger timestamp, and no entry is from the future. -/
structure DedupSound (H : Host D) (env : Env) (s : State D) (R : List Record) : Prop where
  byHash : ∀ d k, s.inst .eventContentHash d = some k → ∃ r, R[k]? = some r ∧ contentHash H env r = d
  byHashWithTs : ∀ d k ts, s.inst .eventContentHashWithTs d = some (k, ts) →
    ts ≤ env.timestamp ∧ (ts = env.timestamp →
      ∃ r, R[k]? = some r ∧ contentHash H env r = d ∧ r.timestamp = ts)

/-- At a later time there is less to show. -/
theorem DedupSound.later (h : DedupSound H env s R) (hp : env'.payload = env.payload)
    (ht : env.timestamp ≤ env'.timestamp) : DedupSound H env' s R := by
  have hhash : contentHash H env' = contentHash H env := by
    funext r; simp only [contentHash, computeContentHash, hp]
  refine ⟨fun d k hd => ?_, fun d k ts hd => ?_⟩
  · rw [hhash]; exact h.byHash d k hd
  · obtain ⟨hle, hnow⟩ := h.byHashWithTs d k ts hd
    refine ⟨hle.trans ht, fun he => ?_⟩
    rw [hhash]; exact hnow (by omega)

/-- Every entry of `s'` is an entry of `s`. -/
structure Shrinks (s s' : State D) : Prop where
  byHash : ∀ d k, s'.inst .eventContentHash d = some k → s.inst .eventContentHash d = some k
  byHashWithTs : ∀ d e, s'.inst .eventContentHashWithTs d = some e →
    s.inst .eventContentHashWithTs d = some e

theorem shrinks_of_eq (h : s'.inst .eventContentHash = s.inst .eventContentHash)
    (h' : s'.inst .eventContentHashWithTs = s.inst .eventContentHashWithTs) : Shrinks s s' :=
  ⟨fun _ _ => by rw [h]; exact id, fun _ _ => by rw [h']; exact id⟩

theorem Shrinks.del (h : Shrinks s s') (f : DataKey) (k : f.Key D) : Shrinks s (s'.del f k) :=
  ⟨fun d n hd => h.byHash d n (Store.of_remove hd),
    fun d e hd => h.byHashWithTs d e (Store.of_remove hd)⟩

/-! ## Clean-up -/

/-- The clean-up functions only remove entries. -/
theorem shrinks_cleanupWindow {round : ℕ → ℕ → Fn D ℕ} {topic : Symbol} {caller : Address} {i n : ℕ}
    (hround : ∀ c j s', Shrinks s s' → Post (round c j) (fun _ t => Shrinks s t) env s') :
    Post (cleanupWindow round topic caller i n) (fun _ s' => Shrinks s s') env s := by
  simp only [cleanupWindow, post_bind, post_addChecked, post_publish, post_pure]
  refine post_reads fun _ _ => post_reads fun _ _ _ => ?_
  refine (post_foldlM (fun _ _ t => Shrinks s t) _ _ s [] (shrinks_of_eq rfl rfl) ?_).mono ?_
  · exact fun _ j _ c t _ ht => hround c j t ht
  · exact fun _ t ht => ⟨ht.byHash, ht.byHashWithTs⟩

theorem Shrinks.post_cleanContentHash (h : Shrinks s s') {d : D} {i n : ℕ} :
    Post (cleanContentHash d i n) (fun _ t => Shrinks s t) env s' := by
  simp only [cleanContentHash, post_bind, post_load, post_ite, post_clear, post_pure]
  exact ⟨fun _ => h.del _ _, fun _ => h⟩

theorem Shrinks.post_cleanContentHashWithTs (h : Shrinks s s') {d : D} {i n : ℕ} :
    Post (cleanContentHashWithTs d i n) (fun _ t => Shrinks s t) env s' := by
  simp only [cleanContentHashWithTs, post_bind, post_load, post_ite, post_clear, post_pure]
  exact ⟨fun _ => h.del _ _, fun _ => h⟩

/-- Outside the single path, entries are only removed. -/
theorem step_shrinks (hx : op.submission = none) (hs : Step H env op s r s') : Shrinks s s' := by
  have framed : (∀ f ∈ [DataKey.eventContentHash, .eventContentHashWithTs], f ∉ op.writes) →
      Shrinks s s' := fun hf => by
    have hframe := (exec_writes H op).of_run hs
    exact shrinks_of_eq (hframe.inst (hf _ (by simp))) (hframe.inst (hf _ (by simp)))
  cases op with
  | logEvent | logEventWithNonce | logEventSigned | logEventWithCustomKey | logOperationalAction =>
    cases hx
  | cleanupStaleHashes a i n =>
    have key : Post (exec H (.cleanupStaleHashes a i n)) (fun _ s' => Shrinks s s') env s := by
      simp only [exec, cleanupStaleHashes, post_bind, post_pure]
      refine shrinks_cleanupWindow fun c j t ht => ?_
      simp only [cleanStaleHash, post_bind, post_onSome, post_pure]
      exact post_reads fun _ _ => ⟨fun _ _ => ht.post_cleanContentHash, fun _ => ht⟩
    exact key.of_run hs
  | cleanupStaleDedupEntries a i n =>
    have key : Post (exec H (.cleanupStaleDedupEntries a i n)) (fun _ s' => Shrinks s s') env s := by
      simp only [exec, cleanupStaleDedupEntries, post_bind, post_pure]
      refine shrinks_cleanupWindow fun c j t ht => ?_
      simp only [cleanStaleDedup, post_bind, post_onSome, post_pure]
      refine post_reads fun _ _ => ⟨fun _ _ => ?_, fun _ => ht⟩
      exact ht.post_cleanContentHash.mono fun _ _ h => h.post_cleanContentHashWithTs
    exact key.of_run hs
  | _ => exact framed (apart_of_eval rfl)

/-! ## Amendments -/

/-- A dedup map records position `i` under the content it has: `EventContentHash`, or
    `EventContentHashWithTs` with the current timestamp. -/
def recorded (H : Host D) (env : Env) (s : State D) (i : ℕ) : Bool :=
  match eventAt s i with
  | none => false
  | some e =>
    let d := contentHash H env e.record
    s.inst .eventContentHash d = some i ∨
      s.inst .eventContentHashWithTs d = some (i, env.timestamp)

/-- The call changes the metadata of no recorded event. -/
def Op.respectsDedup (H : Host D) (env : Env) (s : State D) (op : Op D) : Bool :=
  (op.amends env s).all fun p =>
    (eventAt s p.1).map (·.metadata) = some p.2 ∨ recorded H env s p.1 = false

/-- What a map records, a call that respects the maps leaves alone. -/
theorem getElem?_of_recorded (hc : op.respectsDedup H env s = true) (hlog : HasLog H s R) {k : ℕ}
    {q : Record} (hk : R[k]? = some q)
    (hrec : s.inst .eventContentHash (contentHash H env q) = some k ∨
      s.inst .eventContentHashWithTs (contentHash H env q) = some (k, env.timestamp))
    (A : List Record) : (amendAll R (op.amends env s) ++ A)[k]? = some q := by
  obtain ⟨e, he, hq⟩ : ∃ e, eventAt s k = some e ∧ e.record = q := by
    have := hlog.eventAt k
    rw [hk] at this
    exact Option.map_eq_some_iff.1 this
  have hget : (amendAll R (op.amends env s))[k]? = some q := by
    refine getElem?_amendAll hk fun p hp hpk => ?_
    have hp' := List.all_eq_true.1 hc p hp
    simp only [hpk, he, recorded, hq, Option.map_some, Option.some.injEq, decide_eq_true_eq,
      decide_eq_false_iff_not] at hp'
    rcases hp' with hp' | hp'
    · rw [← hp', ← hq]; rfl
    · exact (hp' hrec).elim
  rw [List.getElem?_append_left (List.getElem?_eq_some_iff.1 hget).1, hget]

/-! ## Steps -/

/-- The single path amends nothing. -/
theorem amends_of_submission {x : Submission} (hx : op.submission = some x) : op.amends env s = [] := by
  cases op <;> simp [Op.submission] at hx <;> rfl

/-- Entries may be removed, and the log may change where no entry points. -/
theorem DedupSound.of_shrinks {R' : List Record} (h : DedupSound H env s R) (hsh : Shrinks s s')
    (hR : ∀ k q, R[k]? = some q → (s.inst .eventContentHash (contentHash H env q) = some k ∨
      s.inst .eventContentHashWithTs (contentHash H env q) = some (k, env.timestamp)) →
        R'[k]? = some q) : DedupSound H env s' R' := by
  refine ⟨fun d k hd => ?_, fun d k ts hd => ?_⟩
  · have hd := hsh.byHash d k hd
    obtain ⟨q, hq, rfl⟩ := h.byHash d k hd
    exact ⟨q, hR k q hq (Or.inl hd), rfl⟩
  · have hd := hsh.byHashWithTs d _ hd
    obtain ⟨hle, hnow⟩ := h.byHashWithTs d k ts hd
    refine ⟨hle, fun he => ?_⟩
    obtain ⟨q, hq, rfl, hts⟩ := hnow he
    exact ⟨q, hR k q hq (Or.inr (he ▸ hd)), rfl, hts⟩

/-- A new entry points to the record it was made for. -/
theorem DedupSound.record (h : DedupSound H env s R) {policy : DedupPolicy} {i : ℕ} {q : Record}
    (hd : DedupRecorded policy (contentHash H env q) i env.timestamp s s') (hq : R[i]? = some q)
    (hts : q.timestamp = env.timestamp) : DedupSound H env s' R := by
  refine ⟨fun d k hk => ?_, fun d k ts hk => ?_⟩
  · rw [hd.byHash] at hk
    split_ifs at hk
    · by_cases hdq : d = contentHash H env q
      · rw [hdq, Function.update_self] at hk
        exact ⟨q, Option.some.inj hk ▸ hq, hdq.symm⟩
      · rw [Function.update_of_ne hdq] at hk
        exact h.byHash d k hk
    · exact h.byHash d k hk
  · rw [hd.byHashWithTs] at hk
    split_ifs at hk
    · by_cases hdq : d = contentHash H env q
      · rw [hdq, Function.update_self] at hk
        obtain ⟨rfl, rfl⟩ := Prod.mk.inj (Option.some.inj hk)
        exact ⟨le_rfl, fun _ => ⟨q, hq, hdq.symm, hts⟩⟩
      · rw [Function.update_of_ne hdq] at hk
        exact h.byHashWithTs d k ts hk
    · exact h.byHashWithTs d k ts hk

/-- **Every call that respects the maps keeps them sound.** -/
theorem step_dedupSound (hinj : Function.Injective H.sha256) (hlog : HasLog H s R)
    (h : DedupSound H env s R) (hc : op.respectsDedup H env s = true) (hs : Step H env op s r s') :
    DedupSound H env s' (amendAll R (op.amends env s) ++ op.adds H env s) := by
  rcases hx : op.submission with _ | x
  · exact h.of_shrinks (step_shrinks hx hs) fun k q hq hrec => getElem?_of_recorded hc hlog hq hrec _
  · rw [amends_of_submission hx]
    obtain ⟨L, hL, rfl⟩ := hlog
    have henter : LogInv H (op.enter s) L := hL.of_eq fun _ _ => by rw [Op.enter_inst]
    obtain ⟨id, s₁, hsub, -, hf, -⟩ := step_submitted hx hs
    have hafter : Shrinks s₁ s' := shrinks_of_eq (hf.inst (notMem_of_eval rfl)) (hf.inst (notMem_of_eval rfl))
    -- the old entries point where they did
    have happend : ∀ {s₁ : State D} (A : List Record),
        s₁.inst .eventContentHash = s.inst .eventContentHash →
        s₁.inst .eventContentHashWithTs = s.inst .eventContentHashWithTs →
        DedupSound H env s₁ (records L ++ A) := fun A h₁ h₂ =>
      h.of_shrinks (shrinks_of_eq h₁ h₂) fun k q hq _ => by
        rw [List.getElem?_append_left (List.getElem?_eq_some_iff.1 hq).1, hq]
    simp only [amendAll, List.foldl_nil, Op.adds, hx]
    rcases hsub.outcome with ⟨k, hk, -, -, hf₁⟩ | ⟨hk, i, q, -, hst⟩
    · have hkept : s₁.inst .eventContentHash = s.inst .eventContentHash := by
        rw [hf₁.inst (notMem_of_eval rfl), Op.enter_inst]
      have hkeptTs : s₁.inst .eventContentHashWithTs = s.inst .eventContentHashWithTs := by
        rw [hf₁.inst (notMem_of_eval rfl), Op.enter_inst]
      exact (happend _ hkept hkeptTs).of_shrinks hafter fun k q hq _ => hq
    · rw [hk, Option.isSome_none, if_neg (by simp)]
      have hnew : (records L ++ [x.record env.timestamp])[i]? = some (x.record env.timestamp) := by
        rw [(hst.inv hinj henter).1, ← List.length_map (f := fun p : Entry D => p.2.record)]
        exact List.getElem?_concat_length
      have hbefore : DedupSound H env (op.enter s) (records L ++ [x.record env.timestamp]) :=
        happend _ (by rw [Op.enter_inst]) (by rw [Op.enter_inst])
      have hrec : DedupRecorded (policyOf (op.enter s) x.eventType)
          (contentHash H env (x.record env.timestamp)) i env.timestamp (op.enter s) s₁ := hst.dedup
      exact (hbefore.record hrec hnew rfl).of_shrinks hafter fun k q hq _ => hq

/-! ## Runs -/

/-- The step changes the metadata of no recorded event. -/
def Action.respectsDedup (H : Host D) (s : State D) : Action D → Bool
  | .call env op => op.respectsDedup H env s
  | _ => true

/-- In a run of such steps the maps are sound, at every time from the last call on. -/
theorem run_dedupSound (hinj : Function.Injective H.sha256) {tr : List (State D × Action D)}
    {payload : Symbol → UInt64} (h : History H tr s) (htime : Timely tr)
    (hpay : ∀ s₁ env₁ op, (s₁, Action.call env₁ op) ∈ tr → env₁.payload = payload)
    (hc : ∀ p ∈ tr, p.2.respectsDedup H p.1 = true) :
    ∃ R, HasLog H s R ∧ ∀ env : Env, env.payload = payload → (∀ t ∈ times tr, t ≤ env.timestamp) →
      DedupSound H env s R := by
  obtain ⟨s₀, h₀, hrun⟩ := h
  obtain ⟨g, m, hinit⟩ := initialized_of_init h₀
  induction hrun with
  | init =>
    refine ⟨[], hinit.hasLog, fun env _ _ => ⟨fun d k hd => ?_, fun d k ts hd => ?_⟩⟩
    · rw [(hinit.absent (f := .eventContentHash) (by simp) d).1] at hd; cases hd
    · rw [(hinit.absent (f := .eventContentHashWithTs) (by simp) d).1] at hd; cases hd
  | @snoc tr s s' a _ hn ih =>
    obtain ⟨R, hlog, hsound⟩ := ih htime.of_append
      (fun s₁ env₁ op hp => hpay s₁ env₁ op (List.mem_append_left _ hp))
      fun p hp => hc p (List.mem_append_left _ hp)
    refine ⟨a.logAfter H s R, next_hasLog hinj hlog hn, fun env henv hle => ?_⟩
    cases a with
    | call env₁ op =>
      obtain ⟨r, hs⟩ := hn
      have hpay₁ := hpay s env₁ op (by simp)
      have hnow : DedupSound H env₁ s R := hsound env₁ hpay₁ (timely_call.1 htime).2
      have hcall : op.respectsDedup H env₁ s = true := hc (s, .call env₁ op) (by simp)
      refine (step_dedupSound hinj hlog hnow hcall hs).later (henv.trans hpay₁.symm) ?_
      exact hle _ (by rw [times_call]; simp)
    | expireTemporary f k =>
      rw [Next] at hn
      refine (hsound env henv fun t ht => hle t ?_).of_shrinks (hn ▸ shrinks_of_eq rfl rfl)
        fun _ _ hq _ => hq
      rw [times, List.filterMap_append]; exact List.mem_append_left _ ht
    | expirePersistent f k =>
      rw [Next] at hn
      refine (hsound env henv fun t ht => hle t ?_).of_shrinks (hn ▸ shrinks_of_eq rfl rfl)
        fun _ _ hq _ => hq
      rw [times, List.filterMap_append]; exact List.mem_append_left _ ht

/-- The types of the stored events. -/
def typesIn (s : State D) : Set Symbol := {t | ∃ i e, eventAt s i = some e ∧ e.eventType = t}

/-- **Deduplication returns the content that was submitted**, in a run that amends no
    recorded event. -/
theorem history_dedup (hinj : Function.Injective H.sha256) {tr : List (State D × Action D)}
    {a : Address} {t : Symbol} {m : Bytes} {c e : Option Symbol} {id : D} (h : History H tr s)
    (hs : Step H env (.logEvent a t m c e false) s (.id id) s')
    (htime : Timely (tr ++ [(s, .call env (.logEvent a t m c e false))]))
    (hpay : ∀ s₁ env₁ op, (s₁, Action.call env₁ op) ∈ tr → env₁.payload = env.payload)
    (htypes : Set.InjOn env.payload (insert t (typesIn s)))
    (hc : ∀ p ∈ tr, p.2.respectsDedup H p.1 = true)
    (hpolicy : policyOf s t = .contentHash ∨ policyOf s t = .contentHashWithTimestamp)
    (hold : (s'.inst .config ()).map (·.totalEvents) = (s.inst .config ()).map (·.totalEvents)) :
    ∃ evt, s'.inst .eventData id = some evt ∧ evt.eventType = t ∧ evt.submitter = a ∧
      evt.metadata = m ∧
      (policyOf s t = .contentHashWithTimestamp → evt.timestamp = env.timestamp) := by
  obtain ⟨htime, hle⟩ := timely_call.1 htime
  obtain ⟨R, hlog, hsound⟩ := run_dedupSound hinj h htime hpay hc
  have hnow : DedupSound H env s R := hsound env rfl hle
  obtain ⟨id', s₁, hsub, hid, hf, -⟩ := step_submitted rfl hs
  obtain rfl : id = id' := by cases hid; rfl
  rcases hsub.outcome with ⟨k, hk, horder, -, hf₁⟩ | ⟨-, i, q, -, hst⟩
  · -- the record the map points to
    obtain ⟨q, hq, hhash, hts⟩ : ∃ q, R[k]? = some q ∧
        contentHash H env q = computeContentHash H env t a m ∧
        (policyOf s t = .contentHashWithTimestamp → q.timestamp = env.timestamp) := by
      simp only [duplicateOf, Op.enter, Bool.false_eq_true, if_false] at hk
      rcases hpolicy with hp | hp
      · rw [hp] at hk
        obtain ⟨q, hq, hhash⟩ := hnow.byHash _ k hk
        exact ⟨q, hq, hhash, fun h => by rw [hp] at h; cases h⟩
      · rw [hp] at hk
        obtain ⟨⟨k', ts⟩, he, hk⟩ := Option.bind_eq_some_iff.1 hk
        split_ifs at hk with hnow'
        obtain rfl : k' = k := Option.some.inj hk
        obtain ⟨q, hq, hhash, hts⟩ := (hnow.byHashWithTs _ k' ts he).2 hnow'
        exact ⟨q, hq, hhash, fun _ => hts.trans hnow'⟩
    obtain ⟨evt, hevt, rfl⟩ : ∃ evt, eventAt s k = some evt ∧ evt.record = q := by
      have := hlog.eventAt k
      rw [hq] at this
      exact Option.map_eq_some_iff.1 this
    obtain ⟨htype, hsubm, hmeta⟩ := computeContentHash_injective hinj hhash
    have hdata : s.inst .eventData id = some evt := by
      have hat := hevt
      rw [eventAt, show s.inst .eventOrder k = some id from horder] at hat
      exact hat
    refine ⟨evt, ?_, ?_, hsubm, hmeta, hts⟩
    · rw [hf.inst (notMem_of_eval rfl), hf₁.inst (notMem_of_eval rfl)]; exact hdata
    · exact htypes (Or.inr ⟨k, evt, hevt, rfl⟩) (Or.inl rfl) htype
  · obtain ⟨cfg, hcfg, hi, hcfg'⟩ := hst.config
    rw [hf.inst (notMem_of_eval rfl), hcfg', show s.inst .config () = some cfg from hcfg] at hold
    simp only [Option.map_some, Option.some.injEq] at hold
    omega

/-- An event of a batch is updated, which no map records. -/
def amendedScript : List (Env × Op Bytes) :=
  [(openEnv 11, .logEvent (account 66) "a" [1] none none false),
    (openEnv 12, .logEvents [(account 66, "a", [2])]),
    (openEnv 13, .updateEvent (account 65) 1 [3])]

/-- The submission of the first event, again. -/
def resubmission : Env × Op Bytes := (openEnv 14, .logEvent (account 66) "a" [1] none none false)

theorem history_dedup_amendedScript : ∃ s id s', Reachable plainHost s ∧
    Step plainHost resubmission.1 resubmission.2 s (.id id) s' ∧
    ∃ evt, s'.inst .eventData id = some evt ∧ evt.metadata = [1] := by
  let s₀ : State Bytes := deployed (openEnv 10) (account 65) 100 50
  obtain ⟨s', hs'⟩ : ∃ s', play plainHost s₀ (amendedScript ++ [resubmission]) = some s' :=
    Option.isSome_iff_exists.1 (by decide +kernel)
  obtain ⟨s, r, hs, hstep⟩ := step_of_play hs'
  obtain ⟨id, -, -, rfl, -⟩ := step_single rfl hstep
  have hist := history_of_play (init_deployed rfl 100 50) hs
  let types (s : State Bytes) : List (Option Symbol) :=
    (List.range 2).map fun i => (eventAt s i).map (·.eventType)
  let policy (s : State Bytes) : DedupPolicy × Option Config := (policyOf s "a", s.inst .config ())
  have before : (play plainHost s₀ amendedScript).map (fun s => (policy s, types s)) =
      some ((.contentHash, some ⟨100, 2⟩), [some "a", some "a"]) := by decide +kernel
  have after : (play plainHost s₀ (amendedScript ++ [resubmission])).bind (·.inst .config ()) =
      some ⟨100, 2⟩ := by decide +kernel
  have hrespects : (traceOf plainHost s₀ amendedScript).all
      (fun p => p.2.respectsDedup plainHost p.1) = true := by decide +kernel
  have htimes : times (traceOf plainHost s₀ amendedScript) = [11, 12, 13] := by decide +kernel
  have hpay : ∀ s₁ env₁ op, (s₁, Action.call env₁ op) ∈ traceOf plainHost s₀ amendedScript →
      env₁.payload = symbolPayload := by
    intro s₁ env₁ op hp
    have := mem_of_mem_traceOf hp
    simp only [amendedScript, List.mem_cons, Prod.mk.injEq, List.not_mem_nil, or_false] at this
    rcases this with ⟨rfl, -⟩ | ⟨rfl, -⟩ | ⟨rfl, -⟩ <;> rfl
  rw [hs] at before
  rw [hs'] at after
  simp only [policy, types, Option.map_some, Option.bind_some, Option.some.injEq, Prod.mk.injEq,
    List.range_succ_eq_map, List.range_zero, List.map_cons, List.map_nil, List.cons.injEq] at before after
  obtain ⟨⟨hpolicy, hcfg⟩, htype₀, htype₁, -⟩ := before
  -- both events are of the one type
  have htypes : (insert "a" (typesIn s)).Subsingleton := by
    have hall : ∀ t ∈ insert "a" (typesIn s), t = "a" := by
      rintro t (rfl | ⟨i, e, he, rfl⟩)
      · rfl
      · obtain ⟨R, hR⟩ := hasLog_of_history Function.injective_id hist
        have hi : i < 2 := hR.lt_total hcfg he
        interval_cases i
        · simpa [he] using htype₀
        · simpa [he] using htype₁
    exact fun t ht u hu => (hall t ht).trans (hall u hu).symm
  obtain ⟨evt, hevt, -, -, hmeta, -⟩ := history_dedup Function.injective_id hist hstep
    (timely_call.2 ⟨by rw [Timely, htimes]; decide, by rw [htimes]; decide⟩) hpay (htypes.injOn _)
    (List.all_eq_true.1 hrespects) (Or.inl hpolicy) (by rw [after, hcfg])
  exact ⟨s, id, s', ⟨_, hist⟩, hstep, evt, hevt, hmeta⟩

/-- A recorded event is updated. -/
def staleScript : List (Env × Op Bytes) :=
  [(openEnv 11, .logEvent (account 66) "a" [1] none none false),
    (openEnv 13, .updateEvent (account 65) 0 [3])]

/-- Submitted again, the content is not stored: the event under the returned id has the
    metadata of the update. -/
theorem new_event_swallowed : ∃ s id s', Reachable plainHost s ∧ policyOf s "a" = .contentHash ∧
    Step plainHost resubmission.1 resubmission.2 s (.id id) s' ∧
    s.inst .config () = some ⟨100, 1⟩ ∧ s'.inst .config () = some ⟨100, 1⟩ ∧
    (s'.inst .eventData id).map (·.metadata) = some [3] := by
  let s₀ : State Bytes := deployed (openEnv 10) (account 65) 100 50
  let outcome (s : State Bytes) : Option (Option Config × Option Bytes) :=
    match (exec plainHost resubmission.2).run resubmission.1 s with
    | .ok (.id id, s') => some (s'.inst .config (), (s'.inst .eventData id).map (·.metadata))
    | .ok (_, _) => none
    | .error _ => none
  let policy (s : State Bytes) : DedupPolicy × Option Config := (policyOf s "a", s.inst .config ())
  obtain ⟨s, hs⟩ : ∃ s, play plainHost s₀ staleScript = some s :=
    Option.isSome_iff_exists.1 (by decide +kernel)
  have before : (play plainHost s₀ staleScript).map policy =
      some (.contentHash, some ⟨100, 1⟩) := by decide +kernel
  have hout : (play plainHost s₀ staleScript).bind outcome = some (some ⟨100, 1⟩, some [3]) := by
    decide +kernel
  rw [hs] at before hout
  simp only [policy, Option.map_some, Option.bind_some, Option.some.injEq, Prod.mk.injEq] at before hout
  obtain ⟨hpolicy, hcfg⟩ := before
  simp only [outcome] at hout
  split at hout
  · next id s' hrun =>
    simp only [Option.some.injEq, Prod.mk.injEq] at hout
    exact ⟨s, id, s', ⟨_, history_of_play (init_deployed rfl 100 50) hs⟩, hpolicy, hrun, hcfg, hout⟩
  · cases hout
  · cases hout

end AuditLedger
