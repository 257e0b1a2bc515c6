/-
  AuditLedger — the registry of schemas.

  A schema is stored under its event type and version, and the versions of an event type
  in a list of their own, in increasing order.

  * `pairwise_insertU32Sorted`: the insertion keeps a list strictly increasing;
  * `Catalogued`: the list of an event type and the schemas stored for it agree;
  * `reachable_catalogue`: so they do in every reachable state.
-/
import AuditTransparency.Ledger.Enactment
import Mathlib.Data.List.Sort

namespace AuditLedger

open Soroban
open Soroban.Call hiding hasPers publish

variable {D : Type} [DecidableEq D] {H : Host D} {env : Env} {s s' : State D} {r : Ret D} {a : Address}
  {t u : Symbol} {x : Schema} {v : ℕ} {l : List ℕ}

/-! ## Queries -/

/-- `get_schema` -/
def getSchema (eventType : Symbol) (version : ℕ) : Fn D (Option Schema) := do
  requireInitialized
  get .eventSchema (eventType, version)

/-- `list_schemas` -/
def listSchemas (eventType : Symbol) : Fn D (List ℕ) := do
  requireInitialized
  return (← get .schemaVersions eventType).getD []

/-- The versions that are listed for an event type. -/
def versionsOf (s : State D) (t : Symbol) : List ℕ := (s.inst .schemaVersions t).getD []

theorem Deployed.requireInitialized_run (h : Deployed s) :
    (requireInitialized : Fn D Unit).run env s = .ok ((), s) := by
  obtain ⟨c, hc⟩ := Option.isSome_iff_exists.1 h.config
  obtain ⟨o, ho⟩ := Option.isSome_iff_exists.1 h.owner
  simp [requireInitialized, run_bind, Except.bind, run_rejectIf, hc, ho]

theorem Deployed.getSchema_run (h : Deployed s) :
    (getSchema t v).run env s = .ok (s.inst .eventSchema (t, v), s) := by
  rw [getSchema, run_bind_ok _ _ h.requireInitialized_run, run_load]

theorem Deployed.listSchemas_run (h : Deployed s) :
    (listSchemas t).run env s = .ok (versionsOf s t, s) := by
  rw [listSchemas, run_bind_ok _ _ h.requireInitialized_run, run_bind_ok _ _ (run_load ..), run_pure,
    versionsOf]

/-! ## Insertion -/

theorem insertU32Sorted_eq : insertU32Sorted l v = l.orderedInsert (· < ·) v := by
  induction l with
  | nil => rfl
  | cons w l ih => rw [insertU32Sorted, List.orderedInsert_cons, ih]

theorem mem_insertU32Sorted {w : ℕ} : w ∈ insertU32Sorted l v ↔ w = v ∨ w ∈ l := by
  rw [insertU32Sorted_eq, List.mem_orderedInsert]

/-- **The insertion keeps the order**, if the value is new. -/
theorem pairwise_insertU32Sorted (h : l.Pairwise (· < ·)) (hv : v ∉ l) :
    (insertU32Sorted l v).Pairwise (· < ·) := by
  induction l with
  | nil => exact List.pairwise_singleton _ _
  | cons w l ih =>
    obtain ⟨hw, hl⟩ := List.pairwise_cons.1 h
    rw [List.mem_cons, not_or] at hv
    rw [insertU32Sorted]
    split_ifs with hlt
    · refine List.pairwise_cons.2 ⟨?_, h⟩
      intro z hz
      rcases List.mem_cons.1 hz with rfl | hz
      · exact hlt
      · exact lt_trans hlt (hw z hz)
    · refine List.pairwise_cons.2 ⟨?_, ih hl hv.2⟩
      intro z hz
      rcases mem_insertU32Sorted.1 hz with rfl | hz
      · omega
      · exact hw z hz

/-! ## The registry -/

/-- **The registry agrees with itself** about an event type. -/
structure Catalogued (s : State D) (t : Symbol) : Prop where
  sorted : (versionsOf s t).Pairwise (· < ·)
  pos : 0 ∉ versionsOf s t
  listed : ∀ v, v ∈ versionsOf s t ↔ (s.inst .eventSchema (t, v)).isSome
  version : ∀ v, ∀ x ∈ s.inst .eventSchema (t, v), x.version = v

theorem Catalogued.of_eq (h : Catalogued s t) (hv : versionsOf s' t = versionsOf s t)
    (hs : ∀ v, s'.inst .eventSchema (t, v) = s.inst .eventSchema (t, v)) : Catalogued s' t where
  sorted := hv ▸ h.sorted
  pos := hv ▸ h.pos
  listed v := by rw [hv, hs]; exact h.listed v
  version v x hx := h.version v x (hs v ▸ hx)

/-- What registering a schema leaves. -/
theorem registered (hs : Step H env (.registerSchema a t x v) s r s') :
    v ≠ 0 ∧ x.version = v ∧
      s'.inst .eventSchema = Function.update (s.inst .eventSchema) (t, v) (some x) ∧
      ∀ u, versionsOf s' u = if u = t ∧ v ∉ versionsOf s t then insertU32Sorted (versionsOf s t) v
        else versionsOf s u := by
  refine Post.of_run (m := exec H (.registerSchema a t x v)) (Q := fun _ (s' : State D) => v ≠ 0 ∧
    x.version = v ∧ s'.inst .eventSchema = Function.update (s.inst .eventSchema) (t, v) (some x) ∧
      ∀ u, versionsOf s' u = if u = t ∧ v ∉ versionsOf s t then insertU32Sorted (versionsOf s t) v
        else versionsOf s u) ?_ hs
  simp only [exec, registerSchema, post_bind, post_pure, post_load, post_rejectIf, post_doIf, post_store,
    post_publish]
  refine post_reads ?_
  intro _ _ hok
  obtain ⟨hpos, hversion⟩ := not_or.1 hok
  constructor
  · intro hnew
    refine ⟨hpos, not_not.1 hversion, rfl, ?_⟩
    intro u
    by_cases hu : u = t
    · subst hu
      rw [if_pos ⟨rfl, hnew⟩, versionsOf]
      simp [versionsOf]
    · rw [if_neg fun h => hu h.1, versionsOf, versionsOf]
      simp [hu]
  · intro hold
    refine ⟨hpos, not_not.1 hversion, rfl, ?_⟩
    intro u
    rw [if_neg fun h => hold h.2]
    rfl

theorem Catalogued.register (h : Catalogued s u) (hs : Step H env (.registerSchema a t x v) s r s') :
    Catalogued s' u := by
  obtain ⟨hpos, hversion, hschema, hlist⟩ := registered hs
  by_cases hu : u = t
  · subst hu
    -- the versions that are listed now
    have hmem : ∀ w, w ∈ versionsOf s' u ↔ w = v ∨ w ∈ versionsOf s u := by
      intro w
      rw [hlist u]
      split_ifs with hnew
      · exact mem_insertU32Sorted
      · have hold : v ∈ versionsOf s u := not_not.1 fun hno => hnew ⟨rfl, hno⟩
        exact ⟨Or.inr, fun hw => hw.elim (fun e => e ▸ hold) id⟩
    refine ⟨?_, ?_, ?_, ?_⟩
    · rw [hlist u]
      split_ifs with hnew
      · exact pairwise_insertU32Sorted h.sorted hnew.2
      · exact h.sorted
    · intro h0
      rcases (hmem 0).1 h0 with h0 | h0
      · exact hpos h0.symm
      · exact h.pos h0
    · intro w
      rw [hmem, hschema]
      by_cases hw : w = v
      · subst hw
        simp
      · rw [Function.update_of_ne fun e => hw (Prod.mk.inj e).2, h.listed]
        simp [hw]
    · intro w y hy
      rw [hschema] at hy
      by_cases hw : w = v
      · subst hw
        rw [Function.update_self] at hy
        obtain rfl := Option.some.inj hy
        exact hversion
      · rw [Function.update_of_ne fun e => hw (Prod.mk.inj e).2] at hy
        exact h.version w y hy
  · refine h.of_eq ?_ ?_
    · rw [hlist u, if_neg fun hc => hu hc.1]
    · intro w
      rw [hschema, Function.update_of_ne fun e => hu (Prod.mk.inj e).1]

/-- **A step keeps the registry**: no other entry point writes to it. -/
theorem Catalogued.step {act : Action D} (h : Catalogued s t) (hn : Next H s act s') : Catalogued s' t := by
  have framed : s'.inst .schemaVersions = s.inst .schemaVersions →
      s'.inst .eventSchema = s.inst .eventSchema → Catalogued s' t := by
    intro hv hs
    refine h.of_eq ?_ fun v => by rw [hs]
    rw [versionsOf, hv, versionsOf]
  cases act with
  | call env op =>
    obtain ⟨r, hs⟩ := hn
    have heq := (exec_writes H op).of_run hs
    cases op with
    | registerSchema a u x v => exact h.register hs
    | _ => exact framed (heq.inst (notMem_of_eval rfl)) (heq.inst (notMem_of_eval rfl))
  | expireTemporary f k | expirePersistent f k =>
    rw [Next] at hn
    subst hn
    exact framed rfl rfl

theorem Initialized.catalogued {g m : ℕ} (h : Initialized s g m) : Catalogued s t := by
  have hnone : versionsOf s t = [] := by
    rw [versionsOf, (h.absent (f := .schemaVersions) (by simp) t).1]
    rfl
  have hschema (v : ℕ) : s.inst .eventSchema (t, v) = none :=
    (h.absent (f := .eventSchema) (by simp) (t, v)).1
  refine ⟨by simp [hnone], by simp [hnone], fun v => by simp [hnone, hschema], ?_⟩
  intro v x hx
  rw [hschema] at hx
  cases hx

/-- **In every reachable state** the list of the versions of an event type is strictly increasing, without 0,
    and a version is in it exactly if its schema can be read, which then has this version. -/
theorem reachable_catalogue (h : Reachable H s) (env : Env) (t : Symbol) :
    ∃ l, (listSchemas t).run env s = .ok (l, s) ∧ l.Pairwise (· < ·) ∧ 0 ∉ l ∧
      ∀ v, ∃ o, (getSchema t v).run env s = .ok (o, s) ∧ (v ∈ l ↔ o.isSome) ∧ ∀ x ∈ o, x.version = v := by
  have hdeployed := deployed_of_reachable h
  obtain ⟨tr, s₀, h₀, hrun⟩ := h
  obtain ⟨g, m, hinit⟩ := initialized_of_init h₀
  have hcat : Catalogued s t := hrun.invariant (C := fun _ _ => True) (I := fun s => Catalogued s t)
    hinit.catalogued (fun _ _ _ _ hn hI => hI.step hn) fun _ _ => trivial
  exact ⟨versionsOf s t, hdeployed.listSchemas_run, hcat.sorted, hcat.pos,
    fun v => ⟨_, hdeployed.getSchema_run, hcat.listed v, hcat.version v⟩⟩

/-! ## Scripts -/

/-- A schema of the given version. -/
def plainSchema (version : ℕ) : Schema := ⟨.jsonSchemaDraft7, version, [], .unknown⟩

/-- Version 2 is registered, then version 1, and version 2 once more. -/
def versionScript : List (Env × Op Bytes) :=
  [2, 1, 2].map fun v => (openEnv v, .registerSchema (account 65) "wire" (plainSchema v) v)

theorem reachable_catalogue_versionScript :
    ∃ s : State Bytes, play plainHost (deployed (openEnv 0) (account 65) 10 100) versionScript = some s ∧
      ∃ l, (listSchemas "wire").run (openEnv 3) s = .ok (l, s) ∧ l.Pairwise (· < ·) ∧ 0 ∉ l ∧
        ∀ v, ∃ o, (getSchema "wire" v).run (openEnv 3) s = .ok (o, s) ∧ (v ∈ l ↔ o.isSome) ∧
          ∀ x ∈ o, x.version = v := by
  obtain ⟨s, hs⟩ : ∃ s, play plainHost (deployed (openEnv 0) (account 65) 10 100) versionScript = some s :=
    Option.isSome_iff_exists.1 (by decide)
  exact ⟨s, hs, reachable_catalogue ⟨_, history_of_play (init_deployed rfl 10 100) hs⟩ (openEnv 3) "wire"⟩

end AuditLedger
