/-
  AuditLedger — the packed state against the keys it caches.

  `RuntimeState` repeats settings that are also stored one by one.  `Coherent s`
  says that the two copies agree.  Some entry points write the separate key and
  leave the packed state alone: `pause`, `unpause`, `disable_allowlist_mode`, and
  proposals that pause, unpause or set the global maximum.

  * `step_coherent`: a call keeps the copies in agreement exactly when it does
    not change a value it fails to write twice (`Op.syncs`);
  * `history_coherent`: the copies agree in every state of a run exactly when
    this is so for every call of the run.
-/
import AuditTransparency.Ledger.Refinement

namespace AuditLedger

open Soroban
open Soroban.Call hiding hasPers publish

variable {D : Type} [DecidableEq D] {H : Host D} {env : Env} {s s' : State D} {op : Op D} {r : Ret D}

/-- `DataKey::Paused`, false when absent. -/
def pausedFlag (s : State D) : Bool := (s.inst .paused ()).getD false

/-- `DataKey::AllowlistMode`, false when absent. -/
def allowlistFlag (s : State D) : Bool := (s.inst .allowlistMode ()).getD false

/-- The packed state the separate keys give. -/
def assembled (s : State D) (cfg : Config) : RuntimeState where
  globalMaxLogs := cfg.globalMaxLogs
  totalEvents := cfg.totalEvents
  paused := pausedFlag s
  allowlistMode := allowlistFlag s
  lowCostMode := lowCost s
  emissionMode := (s.inst .eventEmissionConfig ()).getD 1
  globalMetadataMaxSize := (s.inst .globalMetadataMaxSize ()).getD 0

/-- **The packed state agrees with the keys it caches.** -/
def Coherent (s : State D) : Prop :=
  ∃ cfg, s.inst .config () = some cfg ∧ s.inst .runtimeState () = some (assembled s cfg)

/-- The keys it is about. -/
abbrev cacheKeys : List DataKey :=
  [.config, .runtimeState, .paused, .allowlistMode, .lowCostMode, .eventEmissionConfig,
    .globalMetadataMaxSize]

theorem assembled_congr (hs : ∀ f ∈ cacheKeys, s'.inst f = s.inst f) (cfg : Config) :
    assembled s' cfg = assembled s cfg := by
  simp only [assembled, pausedFlag, allowlistFlag, lowCost, hs .paused (by simp),
    hs .allowlistMode (by simp), hs .lowCostMode (by simp), hs .eventEmissionConfig (by simp),
    hs .globalMetadataMaxSize (by simp)]

theorem Coherent.of_eq (h : Coherent s) (hs : ∀ f ∈ cacheKeys, s'.inst f = s.inst f) : Coherent s' := by
  obtain ⟨cfg, hcfg, hrs⟩ := h
  refine ⟨cfg, ?_, ?_⟩
  · rw [hs _ (by simp)]; exact hcfg
  · rw [hs _ (by simp), assembled_congr hs]; exact hrs

/-! ## What a call must not change -/

/-- The action does not change a value that it writes only once. -/
def syncsAction (s : State D) : ProposalAction → Bool
  | .pause => pausedFlag s
  | .unpause => !pausedFlag s
  | .setGlobalMaxLogs v => (s.inst .config ()).map (·.globalMaxLogs) = some v
  | _ => true

/-- The call does not change a value that it writes only once. -/
def Op.syncs (env : Env) (s : State D) : Op D → Bool
  | .pause _ => pausedFlag s
  | .unpause _ => !pausedFlag s
  | .disableAllowlistMode _ => !allowlistFlag s
  | .executeProposal _ id => ((enacted s env.timestamp id).map (syncsAction s)).getD true
  | _ => true

/-! ## One call -/

/-- The total may change, in both copies. -/
theorem Coherent.recount (h : Coherent s) {n : ℕ} {cfg : Config} (hcfg : s.inst .config () = some cfg)
    (hs : ∀ f ∈ [DataKey.paused, .allowlistMode, .lowCostMode, .eventEmissionConfig,
      .globalMetadataMaxSize], s'.inst f = s.inst f)
    (hc : s'.inst .config () = some { cfg with totalEvents := n })
    (hr : s'.inst .runtimeState () =
      (s.inst .runtimeState ()).map fun rs => { rs with totalEvents := n }) : Coherent s' := by
  obtain ⟨c, hc₀, hrs⟩ := h
  obtain rfl : cfg = c := Option.some.inj (hcfg.symm.trans hc₀)
  refine ⟨_, hc, ?_⟩
  rw [hr, hrs, Option.map_some]
  simp only [assembled, pausedFlag, allowlistFlag, lowCost, hs .paused (by simp),
    hs .allowlistMode (by simp), hs .lowCostMode (by simp), hs .eventEmissionConfig (by simp),
    hs .globalMetadataMaxSize (by simp)]

theorem coherent_single (h : Coherent s) {x : Submission} (hx : op.submission = some x)
    (hs : Step H env op s r s') : Coherent s' := by
  obtain ⟨id, s₁, hsub, -, hf, -⟩ := step_submitted hx hs
  refine Coherent.of_eq ?_ (hf.inst_eq (apart_of_eval rfl))
  have henter : Coherent (op.enter s) := h.of_eq fun _ _ => by rw [Op.enter_inst]
  rcases hsub.outcome with ⟨k, -, -, -, hf₁⟩ | ⟨-, i, q, -, hst⟩
  · exact henter.of_eq (hf₁.inst_eq (apart_of_eval rfl))
  · obtain ⟨cfg, hcfg, -, hcfg'⟩ := hst.config
    exact henter.recount hcfg (hst.frame.inst_eq (apart_of_eval rfl)) hcfg' hst.runtime

theorem coherent_batch (h : Coherent s) {items : List (Address × Symbol × Bytes)} :
    Post (logEvents H items) (fun _ s' => Coherent s') env s := by
  obtain ⟨cfg, hcfg, hrs⟩ := id h
  refine Post.with_frame (L := layout D) (W := batchWrites) ?_
  unfold logEvents
  refine post_bind_reads fun _ _ => post_bind_reads fun rs hrs' => ?_
  obtain rfl : assembled s cfg = rs := by
    simp only [readRuntimeStateBatch, run_bind, run_load, hrs, onSome, Except.bind, run_pure,
      Except.ok.injEq, Prod.mk.injEq] at hrs'
    exact hrs'.1
  refine post_bind.2 (post_rejectIf.2 fun _ => post_bind.2 (post_rejectIf.2 fun _ => ?_))
  refine post_bind_reads fun _ _ => post_bind_reads fun prev _ => ?_
  simp only [post_bind, post_store, post_pure]
  refine Post.with_frame (L := layout D) (W := itemWrites) fun acc s₁ _ hf₁ => ?_
  refine post_syncTotalEvents.mono fun _ s₂ h₂ hf => ?_
  obtain ⟨hf₂, hr₂⟩ := h₂
  refine h.recount (n := acc.currentTotal) hcfg (hf.inst_eq (apart_of_eval rfl)) ?_ ?_
  · rw [hf₂.inst (notMem_of_eval rfl)]; simp [assembled]
  · rw [hr₂, ← hf₁.inst (f := DataKey.runtimeState) (by simp)]; simp

/-! Writing one copy only. -/

section
variable (h : Coherent s)
include h

theorem coherent_put_paused (b : Bool) : Coherent (s.put .paused () b) ↔ pausedFlag s = b := by
  obtain ⟨cfg, hcfg, hrs⟩ := h
  simp [Coherent, hcfg, hrs, assembled, pausedFlag, allowlistFlag, lowCost]

theorem coherent_put_allowlistMode (b : Bool) :
    Coherent (s.put .allowlistMode () b) ↔ allowlistFlag s = b := by
  obtain ⟨cfg, hcfg, hrs⟩ := h
  simp [Coherent, hcfg, hrs, assembled, pausedFlag, allowlistFlag, lowCost]

theorem coherent_put_config {cfg : Config} (hcfg : s.inst .config () = some cfg) (v : ℕ) :
    Coherent (s.put .config () { cfg with globalMaxLogs := v }) ↔ cfg.globalMaxLogs = v := by
  obtain ⟨c, hc, hrs⟩ := h
  obtain rfl : cfg = c := Option.some.inj (hcfg.symm.trans hc)
  simp [Coherent, hrs, assembled, pausedFlag, allowlistFlag, lowCost]

/-- A write to a key that is not cached. -/
theorem coherent_put {f : DataKey} {k : f.Key D} {v : f.Val D} (hf : f ∉ cacheKeys) :
    Coherent (s.put f k v) :=
  h.of_eq fun _ hg => Ledger.put_inst_ne s (ne_of_mem_of_not_mem hg hf)

end

theorem coherent_publish {n : Published D} : Coherent (s.publish n) ↔ Coherent s := Iff.rfl

/-- The action of a proposal. -/
theorem coherent_performAction (h : Coherent s) {executor : Address} {action : ProposalAction} :
    Post (performAction H executor action)
      (fun _ s' => Coherent s' ↔ syncsAction s action = true) env s := by
  cases action with
  | transferOwnership a => exact post_store.2 (iff_of_true (coherent_put h (by simp)) rfl)
  | addOwner a =>
    simp only [performAction, post_bind, post_doIf, post_store]
    exact post_reads fun _ _ =>
      ⟨fun _ => iff_of_true (coherent_put h (by simp)) rfl, fun _ => iff_of_true h rfl⟩
  | removeOwner a =>
    simp only [performAction, post_bind, post_store]
    exact post_reads fun _ _ => iff_of_true (coherent_put h (by simp)) rfl
  | setRequiredSignatures n => exact post_store.2 (iff_of_true (coherent_put h (by simp)) rfl)
  | setGlobalMaxLogs n =>
    obtain ⟨cfg, hcfg, -⟩ := id h
    simp only [performAction, post_bind, post_load, post_ifSome, post_store]
    refine ⟨fun c hc => ?_, fun hc => by rw [hcfg] at hc; cases hc⟩
    rw [coherent_put_config h hc]
    simp [syncsAction, hc]
  | setMetadataSchema t b => exact post_store.2 (iff_of_true (coherent_put h (by simp)) rfl)
  | rollbackEvent i v =>
    simp only [performAction, post_bind, post_pure]
    refine Post.with_frame (L := layout D) (W := rewriteWrites) fun _ s₁ _ hf => ?_
    exact iff_of_true (h.of_eq (hf.inst_eq (apart_of_eval rfl))) rfl
  | pause => exact post_store.2 (coherent_put_paused h true)
  | unpause =>
    refine post_store.2 ((coherent_put_paused h false).trans ?_)
    simp [syncsAction]

/-- A value is written to its own key, and then to the packed state. -/
theorem coherent_synced (h : Coherent s) {t : State D} {f : RuntimeState → RuntimeState}
    (hstate : t.inst .runtimeState = s.inst .runtimeState)
    (hwritten : ∀ cfg, s.inst .config () = some cfg →
      ∃ cfg', t.inst .config () = some cfg' ∧ f (assembled s cfg) = assembled t cfg') :
    Post (syncRuntimeState f) (fun _ s' => Coherent s') env t := by
  obtain ⟨cfg, hcfg, hrs⟩ := h
  obtain ⟨cfg', hcfg', hf⟩ := hwritten cfg hcfg
  simp only [syncRuntimeState, post_bind, post_load, post_ifSome, post_store, hstate, hrs]
  constructor
  · intro rs hrs'
    obtain rfl := Option.some.inj hrs'
    refine ⟨cfg', ?_, ?_⟩
    · rw [Ledger.put_inst_ne t (by simp)]
      exact hcfg'
    · rw [Ledger.put_inst, Store.set_same, Function.update_self, hf]
      rfl
  · intro hnone
    cases hnone

/-- **A call keeps the copies in agreement exactly when it does not change a value
    that it writes only once.** -/
theorem step_coherent (h : Coherent s) (hs : Step H env op s r s') :
    Coherent s' ↔ op.syncs env s = true := by
  have of_post : Post (exec H op) (fun _ s' => Coherent s' ↔ op.syncs env s = true) env s →
      (Coherent s' ↔ op.syncs env s = true) := fun hp => hp.of_run hs
  have framed : (∀ f ∈ cacheKeys, f ∉ op.writes) → Coherent s' := fun hf =>
    h.of_eq (((exec_writes H op).of_run hs).inst_eq hf)
  obtain ⟨cfg, hcfg, hrs⟩ := id h
  cases op with
  | logEvent | logEventWithNonce | logEventSigned | logEventWithCustomKey | logOperationalAction =>
    exact iff_of_true (coherent_single h rfl hs) rfl
  | logEvents items =>
    refine of_post ?_
    simp only [exec, post_bind, post_pure]
    exact (coherent_batch h).mono fun _ _ h' => iff_of_true h' rfl
  | setGlobalMaxLogs a n =>
    refine of_post ?_
    simp only [exec, setGlobalMaxLogs, post_bind, post_pure, post_rejectIf, post_load, post_unwrap, post_store,
      post_publish, coherent_publish]
    refine post_reads fun _ _ => post_reads fun _ _ _ c hc => ?_
    obtain rfl : cfg = c := Option.some.inj (hcfg.symm.trans hc)
    refine Post.mono (coherent_synced h rfl ?_) fun _ _ h' => iff_of_true h' rfl
    intro c hc
    obtain rfl : cfg = c := Option.some.inj (hcfg.symm.trans hc)
    exact ⟨_, rfl, rfl⟩
  | setMetadataMaxSize a n =>
    refine of_post ?_
    simp only [exec, setMetadataMaxSize, post_bind, post_pure, post_store]
    refine post_reads fun _ _ => Post.mono (coherent_synced h rfl ?_) fun _ _ h' => iff_of_true h' rfl
    exact fun cfg hc => ⟨cfg, hc, rfl⟩
  | setEventEmissionMode a n =>
    refine of_post ?_
    simp only [exec, setEventEmissionMode, post_bind, post_pure, post_store]
    refine post_reads fun _ _ => Post.mono (coherent_synced h rfl ?_) fun _ _ h' => iff_of_true h' rfl
    exact fun cfg hc => ⟨cfg, hc, rfl⟩
  | setLowCostMode a b =>
    refine of_post ?_
    simp only [exec, setLowCostMode, post_bind, post_pure, post_store]
    refine post_reads fun _ _ => Post.mono (coherent_synced h rfl ?_) fun _ _ h' => iff_of_true h' rfl
    exact fun cfg hc => ⟨cfg, hc, rfl⟩
  | enableAllowlistMode a =>
    refine of_post ?_
    simp only [exec, enableAllowlistMode, post_bind, post_pure, post_store, post_publish, coherent_publish]
    refine post_reads fun _ _ => Post.mono (coherent_synced h rfl ?_) fun _ _ h' => iff_of_true h' rfl
    exact fun cfg hc => ⟨cfg, hc, rfl⟩
  | pause a =>
    refine of_post ?_
    simp only [exec, pause, post_bind, post_pure, post_store, post_publish, coherent_publish]
    exact post_reads fun _ _ => coherent_put_paused h true
  | unpause a =>
    refine of_post ?_
    simp only [exec, unpause, post_bind, post_pure, post_store, post_clear, post_publish,
      coherent_publish]
    refine post_reads fun _ _ => ?_
    have hdel : Coherent ((s.put .paused () false).del .pausedSince ()) ↔
        Coherent (s.put .paused () false) := by
      simp [Coherent, assembled, pausedFlag, allowlistFlag, lowCost]
    rw [hdel, coherent_put_paused h]
    simp [Op.syncs]
  | disableAllowlistMode a =>
    refine of_post ?_
    simp only [exec, disableAllowlistMode, post_bind, post_pure, post_store, post_publish,
      coherent_publish]
    refine post_reads fun _ _ => (coherent_put_allowlistMode h false).trans ?_
    simp [Op.syncs]
  | executeProposal a id =>
    refine of_post ?_
    simp only [exec, post_bind, post_pure]
    refine post_executeProposal (fun he => ?_) fun p _ he => ?_
    · simp only [Op.syncs, he]
      exact iff_of_true h rfl
    · simp only [Op.syncs, he]
      refine (coherent_performAction h).mono fun _ s₁ h₁ n => ?_
      rw [coherent_publish]
      refine Iff.trans ⟨fun hc => ?_, fun hc => coherent_put hc (by simp)⟩ h₁
      exact hc.of_eq fun _ hg => (Ledger.put_inst_ne s₁ (ne_of_mem_of_not_mem hg (by simp))).symm
  | _ => exact iff_of_true (framed (apart_of_eval rfl)) rfl

/-! ## Runs -/

/-- The step does not change a value that it writes only once. -/
def Action.syncs (s : State D) : Action D → Bool
  | .call env op => op.syncs env s
  | _ => true

theorem next_coherent {a : Action D} (h : Coherent s) (hn : Next H s a s') :
    Coherent s' ↔ a.syncs s = true := by
  cases a with
  | call env op =>
    obtain ⟨r, hs⟩ := hn
    exact step_coherent h hs
  | expireTemporary f k =>
    rw [Next] at hn; exact iff_of_true (hn ▸ h.of_eq fun _ _ => rfl) rfl
  | expirePersistent f k =>
    rw [Next] at hn; exact iff_of_true (hn ▸ h.of_eq fun _ _ => rfl) rfl

theorem Initialized.coherent {g m : ℕ} (h : Initialized s g m) : Coherent s := by
  refine ⟨_, h.config, ?_⟩
  simp only [h.runtime, assembled, pausedFlag, allowlistFlag, lowCost, h.paused, h.metadata,
    (h.absent (f := .allowlistMode) (by simp) ()).1, (h.absent (f := .lowCostMode) (by simp) ()).1,
    (h.absent (f := .eventEmissionConfig) (by simp) ()).1, Option.getD_some, Option.getD_none]

/-- **The copies agree in every state of a run exactly when no step changes a value
    that it writes only once.** -/
theorem history_coherent {tr : List (State D × Action D)} (h : History H tr s) :
    ((∀ p ∈ tr, Coherent p.1) ∧ Coherent s) ↔ ∀ p ∈ tr, p.2.syncs p.1 = true := by
  obtain ⟨s₀, h₀, hrun⟩ := h
  obtain ⟨g, m, hinit⟩ := initialized_of_init h₀
  refine hrun.always_iff (C := fun s a => a.syncs s = true) (P := fun _ _ => True) (I := Coherent)
    (J := fun _ => True) trivial (fun _ _ _ _ _ => trivial) hinit.coherent ?_ fun _ _ => trivial
  intro s a s' _ hn _ hc
  exact next_coherent hc hn

/-- Calls that write both copies. -/
def syncedScript : List (Env × Op Bytes) :=
  [(openEnv 11, .setGlobalMaxLogs (account 65) 7), (openEnv 11, .setLowCostMode (account 65) true),
    (openEnv 12, .logEvent (account 66) "a" [1] none none false),
    (openEnv 13, .logEvents [(account 66, "a", [2])]), (openEnv 14, .enableAllowlistMode (account 65))]

theorem history_coherent_syncedScript : ∃ tr s, History plainHost tr s ∧ tr.length = 5 ∧
    Coherent s := by
  let s₀ : State Bytes := deployed (openEnv 10) (account 65) 100 50
  obtain ⟨s, hs⟩ : ∃ s, play plainHost s₀ syncedScript = some s :=
    Option.isSome_iff_exists.1 (by decide +kernel)
  have hsync : (traceOf plainHost s₀ syncedScript).all (fun p => p.2.syncs p.1) = true := by
    decide +kernel
  have hist := history_of_play (init_deployed rfl 100 50) hs
  exact ⟨_, s, hist, by decide +kernel, ((history_coherent hist).2 (List.all_eq_true.1 hsync)).2⟩

/-- After `pause`, the packed state still says that the contract runs. -/
theorem paused_not_coherent : ∃ s, Reachable plainHost s ∧ s.inst .paused () = some true ∧
    (s.inst .runtimeState ()).map (·.paused) = some false ∧ ¬Coherent s := by
  let s₀ : State Bytes := deployed (openEnv 10) (account 65) 100 50
  let flags (s : State Bytes) : Option Bool × Option Bool :=
    (s.inst .paused (), (s.inst .runtimeState ()).map (·.paused))
  obtain ⟨s, hs⟩ : ∃ s, play plainHost s₀ [(openEnv 11, .pause (account 65))] = some s :=
    Option.isSome_iff_exists.1 (by decide)
  have hflags : (play plainHost s₀ [(openEnv 11, .pause (account 65))]).map flags =
      some (some true, some false) := by decide
  rw [hs] at hflags
  simp only [flags, Option.map_some, Option.some.injEq, Prod.mk.injEq] at hflags
  obtain ⟨hpaused, hrs⟩ := hflags
  refine ⟨s, ⟨_, history_of_play (init_deployed rfl 100 50) hs⟩, hpaused, hrs, ?_⟩
  rintro ⟨cfg, -, hc⟩
  simp [hc, assembled, pausedFlag, hpaused] at hrs

end AuditLedger
