/-
  MultiTenantLedger — the tenants are isolated.

  Every entry point reads and writes keys of the tenant it names only; the
  registry, which `initialize_tenant` appends to, is read by no query on a tenant.

  * `exec_local`, `ask_local`: every entry point is local to its tenant;
  * `tenants_isolated`: what a tenant can observe depends on the calls that name it.
-/
import AuditTransparency.MultiTenant.Contract
import AuditTransparency.Ledger.Contract

namespace MultiTenantLedger

open Soroban
open Soroban.Call hiding publish
open AuditLedger (openEnv account)

variable {D : Type} [DecidableEq D] {t : Symbol}

/-! ## Keys -/

instance : Owned (tenantOf (D := D)) t .tenantConfig t := ⟨rfl⟩
instance : Owned (tenantOf (D := D)) t .tenantEventCount t := ⟨rfl⟩
instance : Owned (tenantOf (D := D)) t .tenantPrevHash t := ⟨rfl⟩
instance (a : Address) : Owned (tenantOf (D := D)) t .tenantAdmin (t, a) := ⟨rfl⟩
instance (a : Address) : Owned (tenantOf (D := D)) t .tenantRateState (t, a) := ⟨rfl⟩
instance (i : ℕ) : Owned (tenantOf (D := D)) t .tenantEventOrder (t, i) := ⟨rfl⟩
instance (d : D) : Owned (tenantOf (D := D)) t .tenantEventData (t, d) := ⟨rfl⟩
instance (y : Symbol) : Owned (tenantOf (D := D)) t .tenantTypeCount (t, y) := ⟨rfl⟩
instance (y : Symbol) : Owned (tenantOf (D := D)) t .tenantTypeIndices (t, y) := ⟨rfl⟩
instance (y : Symbol) : Owned (tenantOf (D := D)) t .tenantCapConfig (t, y) := ⟨rfl⟩

/-! ## Entry points -/

/-- The registry is shared: it is extended whatever is in it, and nobody's keys change. -/
instance : Local (tenantOf (D := D)) t (registerTenant t : Fn D Unit) where
  alike env s s' hs := by
    refine ⟨rfl, fun f k hk => ?_⟩
    rw [← Ledger.sameFor_put (s := s) (by exact nofun) f k hk,
      ← Ledger.sameFor_put (s := s') (by exact nofun) f k hk]
    exact hs f k hk
  frame env s := by
    simp only [registerTenant, getTenantIds, saveTenantIds, post_bind, post_load, post_pure, post_store]
    exact fun b _ => Ledger.sameFor_put (by exact nofun)

instance (config : TenantConfig) :
    Local (tenantOf (D := D)) t (requireActiveTenant config : Fn D Unit) := by
  unfold requireActiveTenant; split <;> infer_instance

instance : Local (tenantOf (D := D)) t (tenantExists t : Fn D Bool) := by
  unfold tenantExists; infer_instance

instance (config : TenantConfig) :
    Local (tenantOf (D := D)) t (saveTenantConfig t config : Fn D Unit) := by
  unfold saveTenantConfig; infer_instance

instance : Local (tenantOf (D := D)) t (tenantConfig t : Fn D TenantConfig) := by
  unfold tenantConfig; infer_instance

instance (a : Address) : Local (tenantOf (D := D)) t (isTenantAdmin t a : Fn D Bool) := by
  unfold isTenantAdmin; infer_instance

instance (y : Symbol) : Local (tenantOf (D := D)) t (getTenantTypeCount t y : Fn D ℕ) := by
  unfold getTenantTypeCount; infer_instance

instance (a : Address) : Local (tenantOf (D := D)) t (adminConfig a t : Fn D TenantConfig) := by
  unfold adminConfig requireTenantAdmin; infer_instance

instance (a : Address) : Local (tenantOf (D := D)) t (liveAdminConfig a t : Fn D TenantConfig) := by
  unfold liveAdminConfig; infer_instance

instance (a : Address) (config : TenantConfig) (status : TenantStatus) (topic : Symbol) :
    Local (tenantOf (D := D)) t (changeStatus a t config status topic : Fn D Unit) := by
  unfold changeStatus; infer_instance

instance (y : Symbol) : Local (tenantOf (D := D)) t (checkTypeCap t y : Fn D Unit) := by
  unfold checkTypeCap; infer_instance

instance (a : Address) (n now : ℕ) : Local (tenantOf (D := D)) t (checkRate t a n now : Fn D Unit) := by
  unfold checkRate; infer_instance

set_option synthInstance.maxSize 100000 in
instance (a : Address) (y : Symbol) (m : Bytes) :
    Local (tenantOf (D := D)) t (admitTenantEvent a t y m : Fn D TenantConfig) := by
  unfold admitTenantEvent; infer_instance

instance (H : Host D) (a : Address) (y : Symbol) (m : Bytes) (u : Option Symbol) (i : ℕ) :
    Local (tenantOf (D := D)) t (buildTenantEvent H a t y m u i : Fn D (TenantEvent D)) := by
  unfold buildTenantEvent; infer_instance

instance (y : Symbol) (i : ℕ) : Local (tenantOf (D := D)) t (indexTenantEvent t y i : Fn D Unit) := by
  unfold indexTenantEvent; infer_instance

instance : Local (tenantOf (D := D)) t (readableConfig t : Fn D TenantConfig) := by
  unfold readableConfig; infer_instance

instance (i : ℕ) : Local (tenantOf (D := D)) t (tenantEventAt t i : Fn D (TenantEvent D)) := by
  unfold tenantEventAt; infer_instance

instance (b : Bytes) (k : ℕ) : Local (tenantOf (D := D)) t (packedPosition b k : Fn D ℕ) := by
  unfold packedPosition; infer_instance

instance (a : Address) : Local (tenantOf (D := D)) t (suspendTenant a t : Fn D Unit) := by
  refine Local.bind inferInstance fun config => ?_
  split <;> infer_instance

instance (a : Address) : Local (tenantOf (D := D)) t (resumeTenant a t : Fn D Unit) := by
  refine Local.bind inferInstance fun config => ?_
  split <;> infer_instance

instance : Local (tenantOf (D := D)) t (tenantAccessible t : Fn D Bool) := by
  refine Local.bind inferInstance fun config => ?_
  split <;> infer_instance

set_option synthInstance.maxSize 100000 in
/-- Every operation is local to the tenant it names. -/
theorem exec_local (H : Host D) (op : Op) : Local (tenantOf (D := D)) op.tenant (exec H op) := by
  cases op <;>
    simp only [exec, Op.tenant, initializeTenant, archiveTenant, deleteTenant, addTenantAdmin,
      removeTenantAdmin, updateTenantConfig, setTenantTypeCap, logTenantEvent] <;>
    infer_instance

/-- So is every query. -/
theorem ask_local (q : Query D) : Local (tenantOf (D := D)) q.tenant (ask q) := by
  cases q <;>
    simp only [ask, Query.tenant, getTenantEvent, getTenantEventByIndex, getTenantEventByType,
      tenantTotalEvents, tenantEventCountByType] <;>
    infer_instance

/-! ## Runs -/

/-- What a query returns, or how it fails. -/
def answer (q : Query D) (env : Env) (s : State D) : Except (Trap TenantError) (Ret D) :=
  ((ask q).run env s).map Prod.fst

theorem answer_congr {q : Query D} {env : Env} {s s' : State D} (h : s.SameFor tenantOf q.tenant s') :
    answer q env s = answer q env s' :=
  ((ask_local q).alike env s s' h).map_fst

/-- **Tenant isolation.**  Calls that fail are part of the lists; `l` and `l'` agree in the
    calls that name `b`, and may differ in all others. -/
theorem tenants_isolated (H : Host D) (b : Symbol) (l l' : List (Env × Op))
    (h : l.filter (·.2.tenant = b) = l'.filter (·.2.tenant = b)) :
    (outcomes (exec H) Ledger.empty l).filter (·.1.2.tenant = b) =
      (outcomes (exec H) Ledger.empty l').filter (·.1.2.tenant = b) ∧
    ∀ q : Query D, q.tenant = b → ∀ env,
      answer q env (attempt (exec H) Ledger.empty l) = answer q env (attempt (exec H) Ledger.empty l') := by
  have hl := exec_local (D := D) H
  have hrefl : (Ledger.empty : State D).SameFor tenantOf b Ledger.empty := Ledger.SameFor.refl _
  constructor
  · rw [outcomes_filter (exec H) Op.tenant l hrefl, outcomes_filter (exec H) Op.tenant l' hrefl, h]
  · rintro q rfl env
    refine answer_congr ((attempt_sameFor (exec H) Op.tenant l hrefl).trans ?_)
    rw [h]
    exact (attempt_sameFor (exec H) Op.tenant l' hrefl).symm

/-- Two tenants, one of which is suspended in between. -/
def sharedCalls : List (Env × Op) :=
  [(openEnv 10, .initializeTenant (account 65) "a" 0 0 0 []),
    (openEnv 11, .initializeTenant (account 66) "b" 1 0 0 []),
    (openEnv 12, .logTenantEvent (account 67) "a" "login" [1] none),
    (openEnv 13, .suspendTenant (account 65) "a"),
    (openEnv 14, .logTenantEvent (account 67) "b" "login" [2] none),
    (openEnv 15, .logTenantEvent (account 67) "b" "login" [3] none)]

/-- The calls of one tenant alone. -/
def aloneCalls : List (Env × Op) :=
  [(openEnv 11, .initializeTenant (account 66) "b" 1 0 0 []),
    (openEnv 14, .logTenantEvent (account 67) "b" "login" [2] none),
    (openEnv 15, .logTenantEvent (account 67) "b" "login" [3] none)]

theorem tenants_isolated_sharedCalls :
    sharedCalls ≠ aloneCalls ∧
    answer (.tenantTotalEvents "b") (openEnv 16) (attempt (exec plainHost) Ledger.empty sharedCalls) =
      answer (.tenantTotalEvents "b") (openEnv 16) (attempt (exec plainHost) Ledger.empty aloneCalls) ∧
    answer (.tenantTotalEvents "b") (openEnv 16) (attempt (exec plainHost) Ledger.empty aloneCalls) =
      .ok (.nat 1) := by
  have hfilter : sharedCalls.filter (·.2.tenant = "b") = aloneCalls.filter (·.2.tenant = "b") := by
    simp [sharedCalls, aloneCalls, Op.tenant]
  refine ⟨fun h => ?_, ?_, by decide⟩
  · simpa [sharedCalls, aloneCalls] using congrArg List.length h
  · exact (tenants_isolated plainHost "b" sharedCalls aloneCalls hfilter).2 (.tenantTotalEvents "b") rfl _

end MultiTenantLedger
