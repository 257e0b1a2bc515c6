/-
  MultiTenantLedger — what the entry points do.

  * `Op.writes`: the keys an entry point can write;
  * `Revises`: what it does to the configuration of its tenant, and from which;
  * `adminsAfter`: what it does to the admins;
  * `Entered`: what a successful `log_tenant_event` leaves.

  All later invariants are read off these four.
-/
import AuditTransparency.MultiTenant.Isolation

namespace MultiTenantLedger

open Soroban
open Soroban.Call hiding publish
open AuditLedger (u32ToBytes)

variable {D : Type} [DecidableEq D] {H : Host D} {env : Env} {s s' : State D} {op : Op} {t y : Symbol}
  {a : Address} {m : Bytes} {u : Option Symbol}

/-! ## What is written -/

/-- The keys an entry point can write. -/
@[reducible] def Op.writes : Op → List TenantDataKey
  | initializeTenant .. => [.tenantConfig, .tenantAdmin, .tenantIds, .tenantPrevHash]
  | suspendTenant .. | resumeTenant .. | archiveTenant .. | deleteTenant .. | updateTenantConfig .. =>
    [.tenantConfig]
  | addTenantAdmin .. | removeTenantAdmin .. => [.tenantAdmin]
  | setTenantTypeCap .. => [.tenantCapConfig]
  | logTenantEvent .. =>
    [.tenantRateState, .tenantEventData, .tenantEventOrder, .tenantPrevHash, .tenantTypeIndices,
      .tenantTypeCount, .tenantConfig, .tenantEventCount]

instance (config : TenantConfig) : Reads (requireActiveTenant config : Fn D Unit) := by
  unfold requireActiveTenant; split <;> infer_instance

instance : Reads (adminConfig a t : Fn D TenantConfig) := by
  unfold adminConfig requireTenantAdmin isTenantAdmin tenantConfig; infer_instance

instance : Reads (liveAdminConfig a t : Fn D TenantConfig) := by
  unfold liveAdminConfig; infer_instance

instance : Reads (getTenantTypeCount t y : Fn D ℕ) := by unfold getTenantTypeCount; infer_instance

instance : Reads (checkTypeCap t y : Fn D Unit) := by unfold checkTypeCap; infer_instance

instance {W : List TenantDataKey} [In TenantDataKey.tenantConfig W] (config : TenantConfig)
    (status : TenantStatus) (topic : Symbol) :
    Writes (layout D) W (changeStatus a t config status topic : Fn D Unit) := by
  unfold changeStatus saveTenantConfig; infer_instance

instance : Writes (layout D) [.tenantConfig] (suspendTenant a t : Fn D Unit) := by
  refine Writes.bind inferInstance fun config => ?_
  split <;> infer_instance

instance : Writes (layout D) [.tenantConfig] (resumeTenant a t : Fn D Unit) := by
  refine Writes.bind inferInstance fun config => ?_
  split <;> infer_instance

set_option synthInstance.maxSize 100000 in
/-- **Frame of the contract.** -/
theorem exec_writes (H : Host D) (op : Op) : Writes (layout D) op.writes (exec H op) := by
  cases op <;>
    simp only [exec, Op.writes, initializeTenant, tenantExists, saveTenantConfig, registerTenant,
      getTenantIds, saveTenantIds, archiveTenant, deleteTenant, addTenantAdmin, removeTenantAdmin,
      updateTenantConfig, setTenantTypeCap, logTenantEvent, admitTenantEvent, tenantConfig,
      checkRate, buildTenantEvent, indexTenantEvent] <;>
    infer_instance

/-! ## Admins -/

/-- `a` passes the admin check of `t`. -/
def IsAdmin (s : State D) (t : Symbol) (a : Address) : Prop :=
  (s.inst .tenantAdmin (t, a)).getD false = true

instance (s : State D) (t : Symbol) (a : Address) : Decidable (IsAdmin s t a) :=
  inferInstanceAs (Decidable (_ = true))

@[simp] theorem post_requireTenantAdmin {R : Unit → State D → Prop} :
    Post (requireTenantAdmin t a) R env s ↔ (IsAdmin s t a → R () s) := by
  simp [requireTenantAdmin, isTenantAdmin, IsAdmin]

@[simp] theorem post_adminConfig {R : TenantConfig → State D → Prop} :
    Post (adminConfig a t) R env s ↔
      (env.auth a = true → IsAdmin s t a → ∀ c, s.inst .tenantConfig t = some c → R c s) := by
  simp [adminConfig, tenantConfig]

@[simp] theorem post_liveAdminConfig {R : TenantConfig → State D → Prop} :
    Post (liveAdminConfig a t) R env s ↔
      (env.auth a = true → IsAdmin s t a → ∀ c, s.inst .tenantConfig t = some c →
        c.status ≠ .deleted → R c s) := by
  simp [liveAdminConfig]

/-! ## The configuration -/

/-- How an operation changes the configuration of its tenant, and from which. -/
inductive Revises (env : Env) : Op → Option TenantConfig → Option TenantConfig → Prop where
  | created {a t n m r d} : Revises env (.initializeTenant a t n m r d) none
      (some ⟨t, a, .active, n, effectiveMaxMetadata m, r, env.timestamp, env.timestamp, 0, d⟩)
  | suspended {a t c} (h : c.status = .active) : Revises env (.suspendTenant a t) (some c)
      (some { c with status := .suspended, updatedAt := env.timestamp })
  | keptSuspended {a t c} (h : c.status = .suspended) : Revises env (.suspendTenant a t) (some c) (some c)
  | resumed {a t c} (h : c.status = .suspended) : Revises env (.resumeTenant a t) (some c)
      (some { c with status := .active, updatedAt := env.timestamp })
  | keptActive {a t c} (h : c.status = .active) : Revises env (.resumeTenant a t) (some c) (some c)
  | archived {a t c} (h : c.status = .active ∨ c.status = .suspended) :
      Revises env (.archiveTenant a t) (some c)
        (some { c with status := .archived, updatedAt := env.timestamp })
  | keptArchived {a t c} (h : c.status = .archived) : Revises env (.archiveTenant a t) (some c) (some c)
  | deleted {a t f c} (h : c.status = .archived) (hf : f = true ∨ c.totalEvents = 0) :
      Revises env (.deleteTenant a t f) (some c)
        (some { c with status := .deleted, updatedAt := env.timestamp })
  | adminAdded {a t b c} (h : c.status ≠ .deleted) : Revises env (.addTenantAdmin a t b) (some c) (some c)
  | adminRemoved {a t b c} (h : c.status ≠ .deleted) :
      Revises env (.removeTenantAdmin a t b) (some c) (some c)
  | updated {a t n m r d c} (h : c.status ≠ .deleted) :
      Revises env (.updateTenantConfig a t n m r d) (some c)
        (some { c with
          maxEvents := n, maxMetadataBytes := effectiveMaxMetadata m, rateLimit := r, description := d
          updatedAt := env.timestamp })
  | capSet {a t y n c} (h : c.status ≠ .deleted) : Revises env (.setTenantTypeCap a t y n) (some c) (some c)
  | logged {a t y m u c} (h : c.status = .active) (hq : c.maxEvents > 0 → c.totalEvents < c.maxEvents)
      (hm : m.length ≤ c.maxMetadataBytes) (ht : c.totalEvents + 1 < 2 ^ 32) :
      Revises env (.logTenantEvent a t y m u) (some c)
        (some { c with totalEvents := c.totalEvents + 1, updatedAt := env.timestamp })

/-! ## Logging -/

/-- The counter of a type. -/
def typeCount (s : State D) (t y : Symbol) : ℕ := (s.inst .tenantTypeCount (t, y)).getD 0

/-- The packed positions of a type. -/
def packedType (s : State D) (t y : Symbol) : Bytes := (s.inst .tenantTypeIndices (t, y)).getD []

/-- The time of the last event of a submitter under a limit, and how many it had logged then. -/
def rateOf (s : State D) (t : Symbol) (a : Address) : ℕ × ℕ :=
  (s.inst .tenantRateState (t, a)).getD (0, 0)

/-- The event a call stores, at position `i`. -/
def newEvent (H : Host D) (env : Env) (s : State D) (a : Address) (t y : Symbol) (m : Bytes)
    (u : Option Symbol) (i : ℕ) : TenantEvent D :=
  ⟨t, i, env.timestamp, y, a, m, u, computeTenantEventId H env t a y m env.timestamp,
    (s.inst .tenantPrevHash t).getD H.zeros⟩

/-- The rate state after an event at `now`, under the limit `n`. -/
def rateEntered (s : State D) (t : Symbol) (a : Address) (n now : ℕ) : State D :=
  if n > 0 then
    s.put .tenantRateState (t, a) (now, if now = (rateOf s t a).1 then (rateOf s t a).2 + 1 else 1)
  else s

theorem rateEntered_inst {f : TenantDataKey} (hf : f ≠ .tenantRateState) (n now : ℕ) :
    (rateEntered s t a n now).inst f = s.inst f := by
  by_cases hn : n > 0
  · rw [rateEntered, if_pos hn]
    exact Ledger.put_inst_ne s hf
  · rw [rateEntered, if_neg hn]

theorem checkRate_spec (n now : ℕ) :
    Post (checkRate t a n now) (fun _ s' => s' = rateEntered s t a n now ∧
      (n > 0 → now = (rateOf s t a).1 → (rateOf s t a).2 < n)) env s := by
  simp only [checkRate, post_doIf, post_bind, post_load, post_ite, post_rejectIf, post_addChecked,
    post_store]
  refine ⟨fun hn => ⟨fun hnow hlt _ => ⟨?_, fun _ _ => Nat.lt_of_not_ge hlt⟩,
    fun hnow => ⟨?_, fun _ h => absurd h hnow⟩⟩, fun hn => ⟨?_, fun h => absurd h hn⟩⟩
  · rw [rateEntered, if_pos hn, rateOf, if_pos hnow]
  · rw [rateEntered, if_pos hn, rateOf, if_neg hnow]
  · rw [rateEntered, if_neg hn]

@[simp] theorem post_requireActiveTenant {c : TenantConfig} {R : Unit → State D → Prop} :
    Post (requireActiveTenant c) R env s ↔ (c.status = .active → R () s) := by
  unfold requireActiveTenant
  cases c.status <;> simp

@[simp] theorem post_checkTypeCap {R : Unit → State D → Prop} :
    Post (checkTypeCap t y) R env s ↔
      ((∀ n, s.inst .tenantCapConfig (t, y) = some n → typeCount s t y < n) → R () s) := by
  rcases hc : s.inst .tenantCapConfig (t, y) with _ | n <;>
    simp [checkTypeCap, getTenantTypeCount, typeCount, hc]

/-- What the checks of `log_tenant_event` require of the configuration `c`. -/
structure Admits (env : Env) (s : State D) (a : Address) (t y : Symbol) (m : Bytes) (c : TenantConfig) :
    Prop where
  config : s.inst .tenantConfig t = some c
  active : c.status = .active
  quota : c.maxEvents > 0 → c.totalEvents < c.maxEvents
  size : m.length ≤ c.maxMetadataBytes
  cap : ∀ n, s.inst .tenantCapConfig (t, y) = some n → typeCount s t y < n
  rate : c.rateLimit > 0 → env.timestamp = (rateOf s t a).1 → (rateOf s t a).2 < c.rateLimit

theorem admitTenantEvent_spec :
    Post (admitTenantEvent a t y m) (fun c s' => Admits env s a t y m c ∧
      s' = rateEntered s t a c.rateLimit env.timestamp) env s := by
  simp only [admitTenantEvent, tenantConfig, post_bind, post_requireAuth, post_load, post_unwrapOr,
    post_requireActiveTenant, post_rejectIf, post_checkTypeCap, post_getEnv, post_pure]
  intro _ c hc hact hquota hsize hcap
  refine (checkRate_spec _ _).mono fun _ s' h => ⟨⟨hc, hact, fun hm => ?_, by omega, hcap, h.2⟩, h.1⟩
  simp only [hm, true_and, not_le] at hquota
  omega

/-- What a successful `log_tenant_event` leaves. -/
structure Entered (H : Host D) (env : Env) (a : Address) (t y : Symbol) (m : Bytes)
    (u : Option Symbol) (s s' : State D) (c : TenantConfig) : Prop where
  admits : Admits env s a t y m c
  total_lt : c.totalEvents + 1 < 2 ^ 32
  packed_lt : (packedType s t y).length + 4 < 2 ^ 32
  config : s'.inst .tenantConfig = Function.update (s.inst .tenantConfig) t
    (some { c with totalEvents := c.totalEvents + 1, updatedAt := env.timestamp })
  rate : s'.inst .tenantRateState =
    (rateEntered s t a c.rateLimit env.timestamp).inst .tenantRateState
  data : s'.inst .tenantEventData = Function.update (s.inst .tenantEventData)
    (t, (newEvent H env s a t y m u c.totalEvents).eventId) (some (newEvent H env s a t y m u c.totalEvents))
  order : s'.inst .tenantEventOrder = Function.update (s.inst .tenantEventOrder) (t, c.totalEvents)
    (some (newEvent H env s a t y m u c.totalEvents).eventId)
  prev : s'.inst .tenantPrevHash = Function.update (s.inst .tenantPrevHash) t
    (some (newEvent H env s a t y m u c.totalEvents).eventId)
  indices : s'.inst .tenantTypeIndices = Function.update (s.inst .tenantTypeIndices) (t, y)
    (some (packedType s t y ++ u32ToBytes c.totalEvents))
  count : s'.inst .tenantTypeCount = Function.update (s.inst .tenantTypeCount) (t, y)
    (some (typeCount s t y + 1))

theorem logTenantEvent_spec :
    Post (logTenantEvent H a t y m u) (fun id s' => ∃ c, Entered H env a t y m u s s' c ∧
      id = (newEvent H env s a t y m u c.totalEvents).eventId) env s := by
  rw [logTenantEvent, post_bind]
  refine admitTenantEvent_spec.mono fun c s₁ => ?_
  rintro ⟨hadm, rfl⟩
  have hframe : ∀ f, f ≠ .tenantRateState →
      (rateEntered s t a c.rateLimit env.timestamp).inst f = s.inst f :=
    fun f hf => rateEntered_inst hf _ _
  generalize hs₁ : rateEntered s t a c.rateLimit env.timestamp = s₁ at hframe
  simp only [buildTenantEvent, indexTenantEvent, getTenantTypeCount, saveTenantConfig, post_bind,
    post_getEnv, post_load, post_pure, post_store, post_addChecked, post_publish]
  intro hpacked hcount htotal
  simp only [Ledger.put_inst, ne_eq, reduceCtorEq, not_false_eq_true, Store.set_ne, hframe] at hpacked
  refine ⟨c, ⟨hadm, htotal, hpacked, ?_, ?_, ?_, ?_, ?_, ?_, ?_⟩, ?_⟩
  all_goals
    simp only [Ledger.put_inst, Ledger.publish_inst, Store.set_same, ne_eq, reduceCtorEq,
      not_false_eq_true, Store.set_ne, hframe, hs₁, newEvent, packedType, typeCount]

/-! ## Steps -/

/-- The step of a successful `log_tenant_event`. -/
theorem entered_of_run {r : Ret D} (h : (exec H (.logTenantEvent a t y m u)).run env s = .ok (r, s')) :
    ∃ c, Entered H env a t y m u s s' c ∧ r = .id (newEvent H env s a t y m u c.totalEvents).eventId := by
  have hpost : Post (exec H (.logTenantEvent a t y m u)) (fun r s' => ∃ c, Entered H env a t y m u s s' c ∧
      r = .id (newEvent H env s a t y m u c.totalEvents).eventId) env s := by
    rw [exec, post_bind]
    refine logTenantEvent_spec.mono fun id s₁ => ?_
    rintro ⟨c, he, rfl⟩
    exact post_pure.2 ⟨c, he, rfl⟩
  exact hpost.of_run h

theorem revises_of_entered {c : TenantConfig} (h : Entered H env a t y m u s s' c) :
    Revises env (.logTenantEvent a t y m u) (s.inst .tenantConfig t) (s'.inst .tenantConfig t) := by
  rw [h.config, Function.update_self, h.admits.config]
  exact .logged h.admits.active h.admits.quota h.admits.size h.total_lt

/-- **How a step changes the configuration** of the tenant it names. -/
theorem step_revises (h : Steps (exec H) s (env, op) s') :
    Revises env op (s.inst .tenantConfig op.tenant) (s'.inst .tenantConfig op.tenant) := by
  obtain ⟨r, h⟩ := h
  refine Post.of_run (m := exec H op) (Q := fun _ s' =>
    Revises env op (s.inst .tenantConfig op.tenant) (s'.inst .tenantConfig op.tenant)) ?_ h
  cases op with
  | initializeTenant a t n m r d =>
    simp only [exec, initializeTenant, tenantExists, saveTenantConfig, registerTenant, getTenantIds,
      saveTenantIds, post_bind, post_requireAuth, post_load, post_pure, post_rejectIf, post_getEnv,
      post_store, post_publish, Op.tenant]
    intro _ hnone
    simp only [Bool.not_eq_true, Option.isSome_eq_false_iff, Option.isNone_iff_eq_none] at hnone
    simpa [hnone] using Revises.created
  | suspendTenant a t =>
    simp only [exec, suspendTenant, post_bind, post_adminConfig, Op.tenant]
    intro _ _ c hc
    rw [hc]
    rcases hst : c.status
    · simpa [changeStatus, saveTenantConfig] using Revises.suspended hst
    · simpa [hc] using Revises.keptSuspended hst
    · simp
    · simp
  | resumeTenant a t =>
    simp only [exec, resumeTenant, post_bind, post_adminConfig, Op.tenant]
    intro _ _ c hc
    rw [hc]
    rcases hst : c.status
    · simpa [hc] using Revises.keptActive hst
    · simpa [changeStatus, saveTenantConfig] using Revises.resumed hst
    · simp
    · simp
  | archiveTenant a t =>
    simp only [exec, archiveTenant, post_bind, post_adminConfig, post_rejectIf, post_doIf, Op.tenant]
    intro _ _ c hc hdel
    rw [hc]
    constructor
    · intro harch
      have hst : c.status = .active ∨ c.status = .suspended := by
        rcases hst : c.status <;> simp_all
      simpa [changeStatus, saveTenantConfig] using Revises.archived hst
    · intro harch
      simpa [hc] using Revises.keptArchived (not_not.1 harch)
  | deleteTenant a t f =>
    simp only [exec, deleteTenant, post_bind, post_adminConfig, post_rejectIf, Op.tenant]
    intro _ _ c hc harch hforce
    rw [hc]
    have hf : f = true ∨ c.totalEvents = 0 := by
      cases f
      · exact .inr (by simpa using hforce)
      · exact .inl rfl
    simpa [changeStatus, saveTenantConfig] using Revises.deleted (not_not.1 harch) hf
  | addTenantAdmin a t b =>
    simp only [exec, addTenantAdmin, post_bind, post_liveAdminConfig, Op.tenant]
    intro _ _ c hc hdel
    simpa [hc] using Revises.adminAdded hdel
  | removeTenantAdmin a t b =>
    simp only [exec, removeTenantAdmin, post_bind, post_liveAdminConfig, Op.tenant]
    intro _ _ c hc hdel
    simpa [hc] using Revises.adminRemoved hdel
  | updateTenantConfig a t n m r d =>
    simp only [exec, updateTenantConfig, post_bind, post_liveAdminConfig, Op.tenant]
    intro _ _ c hc hdel
    rw [hc]
    simpa [saveTenantConfig] using Revises.updated hdel
  | setTenantTypeCap a t y n =>
    simp only [exec, setTenantTypeCap, post_bind, post_liveAdminConfig, Op.tenant]
    intro _ _ c hc hdel
    simpa [hc] using Revises.capSet hdel
  | logTenantEvent a t y m u =>
    intro r s₁ hr
    obtain ⟨c, he, -⟩ := entered_of_run hr
    exact revises_of_entered he

/-- The admins after an operation. -/
def adminsAfter (adm : Symbol × Address → Option Bool) : Op → Symbol × Address → Option Bool
  | .initializeTenant a t .. => Function.update adm (t, a) (some true)
  | .addTenantAdmin _ t b => Function.update adm (t, b) (some true)
  | .removeTenantAdmin _ t b => Function.update adm (t, b) none
  | _ => adm

theorem step_admins (h : Steps (exec H) s (env, op) s') :
    s'.inst .tenantAdmin = adminsAfter (s.inst .tenantAdmin) op := by
  obtain ⟨r, h⟩ := h
  have hframe := (exec_writes H op).of_run h
  cases op with
  | initializeTenant a t n m r d =>
    refine Post.of_run (m := exec H (.initializeTenant a t n m r d)) (Q := fun _ s' =>
      s'.inst .tenantAdmin = _) ?_ h
    simp [exec, initializeTenant, tenantExists, saveTenantConfig, registerTenant, getTenantIds,
      saveTenantIds, adminsAfter]
  | addTenantAdmin a t b =>
    refine Post.of_run (m := exec H (.addTenantAdmin a t b)) (Q := fun _ s' =>
      s'.inst .tenantAdmin = _) ?_ h
    simp [exec, addTenantAdmin, adminsAfter]
  | removeTenantAdmin a t b =>
    refine Post.of_run (m := exec H (.removeTenantAdmin a t b)) (Q := fun _ s' =>
      s'.inst .tenantAdmin = _) ?_ h
    simp [exec, removeTenantAdmin, adminsAfter]
  | _ => exact hframe.inst (notMem_of_eval rfl)

theorem initialized_prev {n k r : ℕ} {d : Bytes}
    (h : Steps (exec H) s (env, .initializeTenant a t n k r d) s') :
    s'.inst .tenantPrevHash t = some H.zeros := by
  obtain ⟨r', h⟩ := h
  refine Post.of_run (m := exec H (.initializeTenant a t n k r d))
    (Q := fun _ s' => s'.inst .tenantPrevHash t = _) ?_ h
  simp [exec, initializeTenant, tenantExists, saveTenantConfig, registerTenant, getTenantIds,
    saveTenantIds]

/-- A step leaves the tenants it does not name alone. -/
theorem step_other (h : Steps (exec H) s (env, op) s') (ht : t ≠ op.tenant) :
    s.SameFor tenantOf t s' := by
  obtain ⟨r, h⟩ := h
  exact (exec_local H op).frame env s r s' h t ht

end MultiTenantLedger
