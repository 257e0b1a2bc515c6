/-
  MultiTenantLedger — admins, limits and lifecycle.

  * `Governed`: every tenant that is not deleted has an admin.  A step keeps this
    unless it removes the last admin, which `remove_tenant_admin` does not check;
  * `WithinLimits`: what holds of the events of a tenant after one was logged;
  * `Lifecycle`: how the status of a tenant can change in a step;
  * `history_governed`: a run keeps all three if and only if no step removes the
    last admin of a tenant.
-/
import AuditTransparency.MultiTenant.Log

namespace MultiTenantLedger

open Soroban
open Soroban.Call hiding publish
open AuditLedger (openEnv account)

variable {D : Type} [DecidableEq D] {H : Host D} {env : Env} {s s' : State D} {op : Op} {t y : Symbol}
  {a : Address} {c : Env × Op} {tr : List (State D × (Env × Op))}

/-! ## Admins -/

/-- Every tenant that exists and is not deleted has an admin. -/
def Governed (s : State D) : Prop := ∀ t, Live s t → ∃ a, IsAdmin s t a

/-- A `remove_tenant_admin` leaves another admin. -/
def LeavesAdmin (s : State D) (c : Env × Op) : Prop :=
  match c.2 with
  | .removeTenantAdmin _ t a => ∃ b, b ≠ a ∧ IsAdmin s t b
  | _ => True

theorem live_congr (h : s.SameFor tenantOf t s') : Live s t ↔ Live s' t := by
  rw [Live, Live, h .tenantConfig t rfl]

theorem isAdmin_congr (h : s.SameFor tenantOf t s') (a : Address) : IsAdmin s t a ↔ IsAdmin s' t a := by
  rw [IsAdmin, IsAdmin, h .tenantAdmin (t, a) rfl]

/-- A tenant that a step other than its creation leaves alive was alive before. -/
theorem live_of_step (h : Steps (exec H) s (env, op) s') (hold : s.inst .tenantConfig op.tenant ≠ none)
    (hl : Live s' op.tenant) : Live s op.tenant := by
  obtain ⟨c', hc', hst⟩ := hl
  have hrev := step_revises h
  rw [hc'] at hrev
  obtain ⟨c, hc⟩ := Option.ne_none_iff_exists'.1 hold
  rw [hc] at hrev
  refine ⟨c, hc, ?_⟩
  cases hrev with
  | suspended h | keptSuspended h | resumed h | keptActive h | keptArchived h | logged h =>
    rw [h]; exact nofun
  | archived h => rcases h with h | h <;> rw [h] <;> exact nofun
  | deleted => exact absurd rfl hst
  | adminAdded h | adminRemoved h | updated h | capSet h => exact h

/-- The admins of the tenant of a step that removes none. -/
theorem isAdmin_step (h : Steps (exec H) s (env, op) s') (hop : ∀ x t b, op ≠ .removeTenantAdmin x t b)
    (hadm : IsAdmin s t a) : IsAdmin s' t a := by
  rw [IsAdmin, step_admins h]
  rw [IsAdmin] at hadm
  cases op with
  | removeTenantAdmin x t b => exact absurd rfl (hop x t b)
  | initializeTenant x t' | addTenantAdmin x t' b =>
    rw [adminsAfter, Function.update_apply]
    split_ifs
    · rfl
    · exact hadm
  | _ => exact hadm

/-- **A step keeps every tenant governed** unless it removes the last admin. -/
theorem step_governed (h : Steps (exec H) s c s') (hg : Governed s) : Governed s' ↔ LeavesAdmin s c := by
  obtain ⟨env, op⟩ := c
  have hother : ∀ t, t ≠ op.tenant → Live s' t → ∃ a, IsAdmin s' t a := by
    intro t ht hl
    have hsame := step_other h ht
    obtain ⟨a, ha⟩ := hg t ((live_congr hsame).2 hl)
    exact ⟨a, (isAdmin_congr hsame a).1 ha⟩
  by_cases hop : ∃ x t b, op = .removeTenantAdmin x t b
  · obtain ⟨x, t, b, rfl⟩ := hop
    have hrev := step_revises h
    have hlive : Live s' t := by
      simp only [Op.tenant] at hrev
      generalize s.inst .tenantConfig t = o at hrev
      rcases ho' : s'.inst .tenantConfig t with _ | c'
      · rw [ho'] at hrev; cases hrev
      · rw [ho'] at hrev
        cases hrev with
        | adminRemoved hst => exact ⟨_, ho', hst⟩
    have hadm : ∀ d, IsAdmin s' t d ↔ d ≠ b ∧ IsAdmin s t d := by
      intro d
      rw [IsAdmin, step_admins h, adminsAfter, Function.update_apply, IsAdmin]
      by_cases hd : d = b <;> simp [hd]
    constructor
    · intro hg'
      obtain ⟨d, hd⟩ := hg' t hlive
      exact ⟨d, (hadm d).1 hd⟩
    · rintro ⟨d, hd⟩ t' hl
      by_cases ht : t' = t
      · subst ht
        exact ⟨d, (hadm d).2 hd⟩
      · exact hother t' ht hl
  · simp only [not_exists] at hop
    have htrue : LeavesAdmin s (env, op) := by
      cases op with
      | removeTenantAdmin x t b => exact absurd rfl (hop x t b)
      | _ => trivial
    refine iff_of_true (fun t hl => ?_) htrue
    by_cases ht : t = op.tenant
    · subst ht
      by_cases hnew : s.inst .tenantConfig op.tenant = none
      · have hrev := step_revises h
        rw [hnew] at hrev
        -- the creator is the first admin
        cases op with
        | initializeTenant x t =>
          refine ⟨x, ?_⟩
          rw [IsAdmin, step_admins h]
          simp [adminsAfter, Op.tenant]
        | _ => cases hrev
      · obtain ⟨a, ha⟩ := hg _ (live_of_step h hnew hl)
        exact ⟨a, isAdmin_step h hop ha⟩
    · exact hother t ht hl

/-! ## Lifecycle -/

/-- The changes of a status. -/
inductive StatusMove : TenantStatus → TenantStatus → Prop where
  | suspend : StatusMove .active .suspended
  | resume : StatusMove .suspended .active
  | archiveActive : StatusMove .active .archived
  | archiveSuspended : StatusMove .suspended .archived
  | delete : StatusMove .archived .deleted

/-- A tenant is created active, is never forgotten, and keeps its status or moves on. -/
def Lifecycle (s s' : State D) : Prop :=
  ∀ t, match s.inst .tenantConfig t, s'.inst .tenantConfig t with
    | none, none => True
    | none, some c' => c'.status = .active
    | some c, some c' => c'.status = c.status ∨ StatusMove c.status c'.status
    | some _, none => False

theorem step_lifecycle (h : Steps (exec H) s c s') : Lifecycle s s' := by
  obtain ⟨env, op⟩ := c
  intro t
  by_cases ht : t = op.tenant
  · subst ht
    have hrev := step_revises h
    generalize s.inst .tenantConfig op.tenant = o at hrev
    generalize s'.inst .tenantConfig op.tenant = o' at hrev
    cases hrev with
    | created => rfl
    | suspended hst => exact .inr (by rw [hst]; exact .suspend)
    | resumed hst => exact .inr (by rw [hst]; exact .resume)
    | archived hst =>
      rcases hst with hst | hst
      · exact .inr (by rw [hst]; exact .archiveActive)
      · exact .inr (by rw [hst]; exact .archiveSuspended)
    | deleted hst => exact .inr (by rw [hst]; exact .delete)
    | _ => exact .inl rfl
  · rw [← step_other h ht .tenantConfig t rfl]
    rcases s.inst .tenantConfig t with _ | c
    · trivial
    · exact .inl rfl

/-! ## Limits -/

/-- The rate limit of a tenant. -/
def rateLimitOf (s : State D) (t : Symbol) : Option ℕ := (s.inst .tenantConfig t).map (·.rateLimit)

/-- The events the calls of `tr` stored for `t`, submitted by `a` at the ledger time `now`. -/
def storedAt (H : Host D) (t : Symbol) (a : Address) (now : ℕ) (tr : List (State D × (Env × Op))) :
    List (TenantEvent D) :=
  (storedEvents H t tr).filter fun e => e.submitter = a ∧ e.timestamp = now

/-- What holds in `s` when the last call of `tr` has logged an event of type `y` for `t`,
    submitted by `a` at the ledger time `now`. -/
structure WithinLimits (H : Host D) (tr : List (State D × (Env × Op))) (s : State D) (t y : Symbol)
    (a : Address) (now : ℕ) : Prop where
  active : ∃ c, s.inst .tenantConfig t = some c ∧ c.status = .active ∧
    c.totalEvents = (storedEvents H t tr).length ∧ (c.maxEvents > 0 → c.totalEvents ≤ c.maxEvents)
  cap : ∀ n, s.inst .tenantCapConfig (t, y) = some n →
    typeCount s t y ≤ n ∧ (ofType (storedEvents H t tr) y).length ≤ n
  /-- wherever the limit `n` has been in force since, up to the last call -/
  rate : ∀ before since n, tr = before ++ since → 0 < n →
    (∀ p ∈ since, rateLimitOf p.1 t = some n) → (storedAt H t a now since).length ≤ n

/-- What the rate state of `a` says about the calls since the limit has been in force. -/
structure RateKept (H : Host D) (t : Symbol) (a : Address) (n : ℕ) (since : List (State D × (Env × Op)))
    (s : State D) : Prop where
  le_limit : ∀ now, (storedAt H t a now since).length ≤ n
  le_count : ∀ now, storedAt H t a now since ≠ [] → now ≤ (rateOf s t a).1 ∧
    (now = (rateOf s t a).1 → (storedAt H t a now since).length ≤ (rateOf s t a).2)
  timely : ∀ now, storedAt H t a now since ≠ [] → ∃ p ∈ since, (rateOf s t a).1 = p.2.1.timestamp

theorem rateOf_step (h : Steps (exec H) s c s')
    (hop : ∀ y m u, c.2 ≠ .logTenantEvent a t y m u) : rateOf s' t a = rateOf s t a := by
  obtain ⟨env, op⟩ := c
  obtain ⟨r, hr⟩ := id h
  have hframe := (exec_writes H op).of_run hr
  rw [rateOf, rateOf]
  cases op with
  | logTenantEvent b t' y m u =>
    obtain ⟨c, he, -⟩ := entered_of_run hr
    rw [he.rate, rateEntered]
    by_cases hn : c.rateLimit > 0
    · have hne : (t, a) ≠ (t', b) := by
        rintro ⟨⟩
        exact hop y m u rfl
      rw [if_pos hn, Ledger.put_inst, Store.set_same, Function.update_of_ne hne]
    · rw [if_neg hn]
  | _ => rw [hframe.inst (notMem_of_eval rfl)]

theorem storedAt_snoc (now : ℕ) (since : List (State D × (Env × Op))) (p : State D × (Env × Op)) :
    storedAt H t a now (since ++ [p]) = storedAt H t a now since ++ storedAt H t a now [p] := by
  rw [storedAt, storedEvents, List.filterMap_append, List.filter_append]
  rfl

/-- A step that stores no event of `a` for `t`. -/
theorem RateKept.other {n : ℕ} {since : List (State D × (Env × Op))} (h : RateKept H t a n since s)
    (hs : Steps (exec H) s c s') (hop : ∀ y m u, c.2 ≠ .logTenantEvent a t y m u) :
    RateKept H t a n (since ++ [(s, c)]) s' := by
  have hnone : ∀ now, storedAt H t a now [(s, c)] = [] := by
    intro now
    obtain ⟨env, op⟩ := c
    cases op with
    | logTenantEvent b t' y m u =>
      by_cases ht : t' = t
      · subst ht
        have hb : b ≠ a := by
          rintro rfl
          exact hop y m u rfl
        obtain ⟨c, -, hstored⟩ := storedBy_entered hs
        rw [storedAt, storedEvents, List.filterMap_cons_some hstored]
        simp [newEvent, hb]
      · have hstored : storedBy H t (s, env, .logTenantEvent b t' y m u) = none := if_neg ht
        rw [storedAt, storedEvents, List.filterMap_cons_none hstored]
        rfl
    | _ => rfl
  have heq : ∀ now, storedAt H t a now (since ++ [(s, c)]) = storedAt H t a now since := by
    intro now
    rw [storedAt_snoc, hnone, List.append_nil]
  constructor
  · intro now
    rw [heq]
    exact h.le_limit now
  · intro now hne
    rw [heq] at hne ⊢
    rw [rateOf_step hs hop]
    exact h.le_count now hne
  · intro now hne
    rw [heq] at hne
    rw [rateOf_step hs hop]
    obtain ⟨p, hp, ht⟩ := h.timely now hne
    exact ⟨p, List.mem_append_left _ hp, ht⟩

/-- A step that stores one. -/
theorem RateKept.logged {n : ℕ} {since : List (State D × (Env × Op))} {m : Bytes} {u : Option Symbol}
    (h : RateKept H t a n since s) (hs : Steps (exec H) s (env, .logTenantEvent a t y m u) s') (hn : 0 < n)
    (hlimit : rateLimitOf s t = some n) (htime : ∀ p ∈ since, p.2.1.timestamp ≤ env.timestamp) :
    RateKept H t a n (since ++ [(s, (env, .logTenantEvent a t y m u))]) s' := by
  obtain ⟨c, he, hstored⟩ := storedBy_entered hs
  have hc : c.rateLimit = n := by
    rw [rateLimitOf, he.admits.config] at hlimit
    exact Option.some.inj hlimit
  have hrate : rateOf s' t a = (env.timestamp,
      if env.timestamp = (rateOf s t a).1 then (rateOf s t a).2 + 1 else 1) := by
    rw [rateOf, he.rate, rateEntered, if_pos (hc ▸ hn), Ledger.put_inst, Store.set_same,
      Function.update_self]
    rfl
  have hlast : ∀ now, storedAt H t a now [(s, (env, .logTenantEvent a t y m u))] =
      if env.timestamp = now then [newEvent H env s a t y m u c.totalEvents] else [] := by
    intro now
    rw [storedAt, storedEvents, List.filterMap_cons_some hstored]
    by_cases hnow : env.timestamp = now <;> simp [newEvent, hnow]
  -- how many there were before at this time
  have hbefore : (storedAt H t a env.timestamp since).length <
      (if env.timestamp = (rateOf s t a).1 then (rateOf s t a).2 + 1 else 1) ∧
      (storedAt H t a env.timestamp since).length < n := by
    by_cases hne : storedAt H t a env.timestamp since = []
    · rw [hne]
      refine ⟨?_, hn⟩
      split_ifs <;> simp
    · obtain ⟨hle, hcount⟩ := h.le_count env.timestamp hne
      obtain ⟨p, hp, htp⟩ := h.timely env.timestamp hne
      have heq : env.timestamp = (rateOf s t a).1 := by
        have := htime p hp
        omega
      have hlt := he.admits.rate (hc ▸ hn) heq
      have := hcount heq
      rw [if_pos heq]
      omega
  constructor
  · intro now
    rw [storedAt_snoc, hlast, List.length_append]
    by_cases hnow : env.timestamp = now
    · subst hnow
      have := hbefore.2
      rw [if_pos rfl, List.length_singleton]
      omega
    · rw [if_neg hnow]
      exact h.le_limit now
  · intro now hne
    rw [storedAt_snoc, hlast] at hne ⊢
    rw [hrate]
    by_cases hnow : env.timestamp = now
    · subst hnow
      refine ⟨le_rfl, fun _ => ?_⟩
      have := hbefore.1
      rw [if_pos rfl, List.length_append, List.length_singleton]
      omega
    · rw [if_neg hnow, List.append_nil] at hne
      obtain ⟨hle, -⟩ := h.le_count now hne
      obtain ⟨p, hp, htp⟩ := h.timely now hne
      have := htime p hp
      exact ⟨by show now ≤ env.timestamp; omega, fun heq => absurd heq.symm hnow⟩
  · intro now _
    exact ⟨_, List.mem_append_right _ (List.mem_singleton_self _), by rw [hrate]⟩

/-- **The rate limit holds** in every stretch of a run in which it was in force. -/
theorem rateKept_of_run {n : ℕ} (hn : 0 < n) {s₀ : State D} {since : List (State D × (Env × Op))}
    (h : Run (Steps (exec H)) s₀ since s) (ht : Timely since)
    (hlimit : ∀ p ∈ since, rateLimitOf p.1 t = some n) : RateKept H t a n since s := by
  induction h with
  | init =>
    refine ⟨?_, ?_, ?_⟩ <;> simp [storedAt, storedEvents]
  | @snoc since s s' c _ hs ih =>
    rw [Timely, List.pairwise_append] at ht
    simp only [List.forall_mem_append, List.forall_mem_singleton] at hlimit
    have hkept := ih ht.1 hlimit.1
    obtain ⟨env, op⟩ := c
    by_cases hop : ∃ y m u, op = .logTenantEvent a t y m u
    · obtain ⟨y, m, u, rfl⟩ := hop
      exact hkept.logged hs hn hlimit.2 fun p hp => ht.2.2 p hp _ (List.mem_singleton_self _)
    · simp only [not_exists] at hop
      exact hkept.other hs hop

/-- After a call that has logged an event, the limits hold. -/
theorem withinLimits_of_run {m : Bytes} {u : Option Symbol} (h : Run (Steps (exec H)) Ledger.empty tr s)
    (hs : Steps (exec H) s (env, .logTenantEvent a t y m u) s')
    (ht : Timely (tr ++ [(s, (env, .logTenantEvent a t y m u))])) :
    WithinLimits H (tr ++ [(s, (env, .logTenantEvent a t y m u))]) s' t y a env.timestamp := by
  have hrun := h.snoc hs
  have hlog := tenantLog_of_run hrun t
  obtain ⟨r, hr⟩ := id hs
  obtain ⟨c, he, -⟩ := entered_of_run hr
  have hcap : s'.inst .tenantCapConfig = s.inst .tenantCapConfig :=
    ((exec_writes H (.logTenantEvent a t y m u)).of_run hr).inst (notMem_of_eval rfl)
  have hconfig : s'.inst .tenantConfig t =
      some { c with totalEvents := c.totalEvents + 1, updatedAt := env.timestamp } := by
    rw [he.config, Function.update_self]
  constructor
  · refine ⟨_, hconfig, he.admits.active, ?_, fun hm => he.admits.quota hm⟩
    have := hlog.total
    rwa [hconfig] at this
  · intro n hn
    rw [← hlog.count y, and_self, typeCount, he.count, Function.update_self]
    rw [hcap] at hn
    exact he.admits.cap n hn
  · intro before since n htr hn hlimit
    rw [htr] at hrun
    obtain ⟨s₁, -, hsince⟩ := hrun.cut
    rw [htr] at ht
    exact (rateKept_of_run hn hsince (List.pairwise_append.1 ht).2.1 hlimit).le_limit env.timestamp

/-! ## Runs -/

/-- Every tenant has an admin in every state of the run, every call that logs an event keeps
    to the limits, and every status moves along the lifecycle. -/
structure Governance (H : Host D) (tr : List (State D × (Env × Op))) (s : State D) : Prop where
  admins : (∀ p ∈ tr, Governed p.1) ∧ Governed s
  limits : ∀ before after s₁ s₂ env a t y m u,
    tr = before ++ (s₁, (env, .logTenantEvent a t y m u)) :: after →
    Steps (exec H) s₁ (env, .logTenantEvent a t y m u) s₂ →
    WithinLimits H (before ++ [(s₁, (env, .logTenantEvent a t y m u))]) s₂ t y a env.timestamp
  lifecycle : ∀ p ∈ tr, ∀ s', Steps (exec H) p.1 p.2 s' → Lifecycle p.1 s'

theorem governed_empty : Governed (Ledger.empty : State D) := by
  rintro t ⟨c, hc, -⟩
  cases hc

/-- **Limits and lifecycle hold in every run, and every tenant keeps an admin** if and only
    if no call removes the last one. -/
theorem history_governed (h : Run (Steps (exec H)) Ledger.empty tr s) (ht : Timely tr) :
    Governance H tr s ↔ ∀ p ∈ tr, LeavesAdmin p.1 p.2 := by
  have hadmins : ((∀ p ∈ tr, Governed p.1) ∧ Governed s) ↔ ∀ p ∈ tr, LeavesAdmin p.1 p.2 :=
    Run.always_iff (P := fun _ _ => True) (J := fun _ => True) trivial (fun _ _ _ _ _ => trivial)
      governed_empty (fun s c s' _ hs _ hg => step_governed hs hg) h fun _ _ => trivial
  constructor
  · intro hg
    exact hadmins.1 hg.admins
  · intro hleaves
    refine ⟨hadmins.2 hleaves, ?_, fun p hp s' hs => step_lifecycle hs⟩
    intro before after s₁ s₂ env a t y m u htr hs
    rw [htr] at h ht
    obtain ⟨s₃, hbefore, -, -⟩ := h.split
    refine withinLimits_of_run hbefore hs ?_
    have hpre : before ++ (s₁, (env, .logTenantEvent a t y m u)) :: after =
        (before ++ [(s₁, (env, .logTenantEvent a t y m u))]) ++ after := by simp
    rw [hpre] at ht
    exact (List.pairwise_append.1 ht).1

/-- An admin hands over, and the tenant logs under a rate limit. -/
def handoverScript : List (Env × Op) :=
  [(openEnv 10, .initializeTenant (account 65) "a" 5 0 2 []),
    (openEnv 11, .addTenantAdmin (account 65) "a" (account 66)),
    (openEnv 12, .removeTenantAdmin (account 66) "a" (account 65)),
    (openEnv 13, .logTenantEvent (account 67) "a" "login" [1] none),
    (openEnv 13, .logTenantEvent (account 67) "a" "login" [2] none),
    (openEnv 14, .suspendTenant (account 66) "a")]

theorem history_governed_handoverScript :
    ∃ tr s, Run (Steps (exec plainHost)) Ledger.empty tr s ∧ tr.map Prod.snd = handoverScript ∧
      Governance plainHost tr s := by
  obtain ⟨s, hs⟩ : ∃ s, play (exec plainHost) Ledger.empty handoverScript = some s :=
    Option.isSome_iff_exists.1 (by decide)
  let tr := traceOf (exec plainHost) Ledger.empty handoverScript
  have htime : Timely tr := by decide
  have hother : tr.all (fun p => match p.2.2 with
      | .removeTenantAdmin _ t a => decide (account 66 ≠ a ∧ IsAdmin p.1 t (account 66))
      | _ => true) = true := by decide
  refine ⟨tr, s, run_of_play hs, map_snd_traceOf hs, (history_governed (run_of_play hs) htime).2 ?_⟩
  intro p hp
  have h := List.all_eq_true.1 hother p hp
  obtain ⟨s₁, env, op⟩ := p
  cases op with
  | removeTenantAdmin x t a => exact ⟨account 66, of_decide_eq_true h⟩
  | _ => trivial

/-- The only admin removes itself. -/
def abandonedScript : List (Env × Op) :=
  [(openEnv 10, .initializeTenant (account 65) "a" 5 0 2 []),
    (openEnv 11, .removeTenantAdmin (account 65) "a" (account 65))]

/-- The admins after a run. -/
theorem admins_of_run {s₀ : State D} (h : Run (Steps (exec H)) s₀ tr s) :
    s.inst .tenantAdmin = (tr.map (·.2.2)).foldl adminsAfter (s₀.inst .tenantAdmin) := by
  induction h with
  | init => rfl
  | snoc _ hs ih =>
    rw [List.map_append, List.foldl_append, ← ih]
    exact step_admins hs

/-- A tenant can be left without an admin. -/
theorem tenant_without_admin :
    ∃ tr s, Run (Steps (exec plainHost)) Ledger.empty tr s ∧ Timely tr ∧
      Live s "a" ∧ (∀ a, ¬IsAdmin s "a" a) ∧ ¬Governance plainHost tr s := by
  obtain ⟨s, hs⟩ : ∃ s, play (exec plainHost) Ledger.empty abandonedScript = some s :=
    Option.isSome_iff_exists.1 (by decide)
  have hstatus : (play (exec plainHost) Ledger.empty abandonedScript).map
      (fun s => (s.inst .tenantConfig "a").map (·.status)) = some (some .active) := by decide
  rw [hs] at hstatus
  simp only [Option.map_some, Option.some.injEq, Option.map_eq_some_iff] at hstatus
  obtain ⟨c, hc, hst⟩ := hstatus
  have hrun := run_of_play hs
  have hlive : Live s "a" := ⟨c, hc, by rw [hst]; exact nofun⟩
  have hnone : ∀ a, ¬IsAdmin s "a" a := by
    intro a
    have hops : (traceOf (exec plainHost) Ledger.empty abandonedScript).map (·.2.2) =
        abandonedScript.map Prod.snd := by
      rw [← map_snd_traceOf hs, List.map_map]
      rfl
    rw [IsAdmin, admins_of_run hrun, hops]
    by_cases ha : a = account 65 <;>
      simp [abandonedScript, adminsAfter, Ledger.empty, Store.empty, ha]
  refine ⟨_, s, hrun, by decide, hlive, hnone, fun hg => ?_⟩
  obtain ⟨a, ha⟩ := hg.admins.2 "a" hlive
  exact hnone a ha

end MultiTenantLedger
