/-
  AuditLedger — when a rewriting call returns.

  The functions that rewrite events unwrap what they read from the log, at every
  position.  `Dense s n` says that nothing is missing there, and it survives the
  writes they make; so what is left to fail are the checks on the caller and on
  the arguments.

  * `LogInv.returns_updateEvent`: an update returns when its type accepts the metadata;
  * `LogInv.returns_rollbackEvent`: a rollback returns when the version exists.
-/
import AuditTransparency.Soroban.Returns
import AuditTransparency.Ledger.Enforcement

namespace AuditLedger

open Soroban
open Soroban.Call hiding hasPers publish

variable {D : Type} [DecidableEq D] {H : Host D} {env : Env} {s s' : State D} {L : List (Entry D)}
  {caller : Address} {k n : ℕ} {p : Entry D} {m : Bytes}

/-! ## Events at every position -/

/-- Each of the first `n` positions has an event. -/
def Dense (s : State D) (n : ℕ) : Prop :=
  ∀ i < n, ∃ id, s.inst .eventOrder i = some id ∧ (s.inst .eventData id).isSome

theorem LogInv.dense (h : LogInv H s L) : Dense s L.length := by
  intro i hi
  have hp : L[i]? = some L[i] := List.getElem?_eq_getElem hi
  exact ⟨L[i].1, h.holds.get_order hp, by rw [h.holds.get_data hp]; rfl⟩

/-- A write to another key. -/
theorem Dense.put (h : Dense s n) {f : DataKey} {i : f.Key D} {v : f.Val D}
    (hf : f ∉ [DataKey.eventOrder, .eventData]) : Dense (s.put f i v) n := by
  unfold Dense
  rw [Ledger.put_inst_ne s (ne_of_mem_of_not_mem (by simp : DataKey.eventOrder ∈ _) hf),
    Ledger.put_inst_ne s (ne_of_mem_of_not_mem (by simp : DataKey.eventData ∈ _) hf)]
  exact h

theorem Dense.put_eventData (h : Dense s n) (id : D) (evt : Event D) : Dense (s.put .eventData id evt) n := by
  intro i hi
  obtain ⟨d, ho, hd⟩ := h i hi
  refine ⟨d, by simpa using ho, ?_⟩
  by_cases hid : d = id
  · subst hid
    simp
  · simpa [Function.update_of_ne hid] using hd

theorem Dense.put_eventOrder (h : Dense s n) (id : D) (hid : (s.inst .eventData id).isSome) (j : ℕ) :
    Dense (s.put .eventOrder j id) n := by
  intro i hi
  by_cases hij : i = j
  · subst hij
    exact ⟨id, by simp, by simpa using hid⟩
  · obtain ⟨d, ho, hd⟩ := h i hi
    exact ⟨d, by simpa [Function.update_of_ne hij] using ho, by simpa using hd⟩

/-- What a position is unwrapped to. -/
theorem Dense.get (h : Dense s n) {i : ℕ} (hi : i < n) :
    ∃ id, s.inst .eventOrder i = some id ∧ ∃ e, s.inst .eventData id = some e := by
  obtain ⟨id, ho, hd⟩ := h i hi
  exact ⟨id, ho, Option.isSome_iff_exists.1 hd⟩

theorem returns_relinkLater {prev : D} (h : Dense s n) :
    Returns (relinkLater H k n prev) (fun _ s' => Dense s' n) env s := by
  refine returns_range' (fun _ _ t => Dense t n) _ _ _ _ h ?_
  intro j x t hj ht
  obtain ⟨id, ho, e, hd⟩ := ht.get (show k + 1 + j < n by omega)
  simp only [relinkEvent, returns_bind, returns_load, returns_unwrap, returns_store, returns_pure]
  exact ⟨id, ho, e, hd, (ht.put_eventData _ _).put (by simp)⟩

theorem returns_reparent {currentId newId : D} (h : Dense s n) :
    Returns ((List.range n).foldlM (fun _ i => reparentEvent currentId newId i) ())
      (fun _ s' => Dense s' n) env s := by
  refine returns_range (fun _ _ t => Dense t n) h ?_
  intro j x t hj ht
  obtain ⟨id, ho, e, hd⟩ := ht.get hj
  simp only [reparentEvent, returns_bind, returns_load, returns_unwrap, returns_doIf, returns_store]
  exact ⟨id, ho, e, hd, fun _ => (ht.put_eventData _ _).put (by simp), fun _ => ht⟩

/-- The writes of a revision never fail. -/
theorem returns_reviseEvent {vs : List (EventVersion D)} {newId : D} {evt : Event D} (h : Dense s n) :
    Returns (reviseEvent H k n vs newId evt) (fun _ s' => Dense s' n) env s := by
  simp only [reviseEvent, replaceEvent, returns_bind, returns_store, returns_pure]
  have hdata : Dense ((s.put .eventVersions k vs).put .eventData newId evt) n :=
    (h.put (by simp)).put_eventData _ _
  have horder := hdata.put_eventOrder newId (by simp) k
  exact returns_relinkLater (((horder.put (by simp)).put (by simp)).put (by simp))

/-! ## The checks -/

/-- The call of `caller` is authorised, and it passes the check of the owner operations. -/
structure Authorised (env : Env) (s : State D) (caller : Address) : Prop where
  auth : env.auth caller = true
  passes : Passes s caller

/-- The owner's call, where roles are not enforced. -/
theorem authorised_of_owner (hauth : env.auth caller = true) (hrbac : (rosterOf s).rbac = false)
    (howner : (rosterOf s).IsOwner caller) : Authorised env s caller where
  auth := hauth
  passes := by
    rw [passes_iff, hrbac, if_neg Bool.false_ne_true]
    exact howner

theorem Authorised.of_eq (h : Authorised env s caller)
    (hs : ∀ f ∈ [DataKey.owner, .owners, .requiredSignatures, .role, .rbacEnabled], s'.inst f = s.inst f) :
    Authorised env s' caller where
  auth := h.auth
  passes := by
    have hsame : rosterOf s' = rosterOf s := by
      simp [rosterOf, hs .owner, hs .owners, hs .requiredSignatures, hs .role, hs .rbacEnabled]
    have hpasses := h.passes
    rw [passes_iff] at hpasses ⊢
    rw [hsame]
    exact hpasses

theorem Authorised.requireCaller_run (ha : Authorised env s caller) (h : LogInv H s L) :
    (requireCaller caller : Fn D Unit).run env s = .ok ((), s) := by
  rw [requireCaller, run_bind_ok _ _ h.requireInitialized_run,
    run_bind_ok _ _ ((run_requireAuth env s caller).trans (if_pos ha.auth)), ha.passes env]

/-- Events of the type may have the metadata. -/
def Accepts (s : State D) (eventType : Symbol) (metadata : Bytes) : Prop :=
  metadata.length ≤ ((s.inst .eventMetadataMaxSize eventType).or
    (s.inst .globalMetadataMaxSize ())).getD defaultMaxMetadataSize ∧
  ∀ schema, s.inst .metadataSchema eventType = some schema → validateMetadataSchema metadata schema = true

theorem returns_checkMetadata {eventType : Symbol} {Q : Unit → State D → Prop} :
    Returns (checkMetadata eventType m) Q env s ↔ Accepts s eventType m ∧ Q () s := by
  simp only [checkMetadata, effectiveMetadataMaxSize, validateMetadataAgainstSchema, returns_bind,
    returns_load, returns_pure, returns_rejectIf, returns_ifSome, Accepts, not_lt, not_not, and_assoc]
  refine and_congr_right fun _ => ?_
  cases s.inst .metadataSchema eventType <;> simp

section
variable (h : LogInv H s L) (ha : Authorised env s caller)
include h ha

/-- **An update returns** when its type accepts the metadata. -/
theorem LogInv.returns_updateEvent (hp : L[k]? = some p) :
    Returns (updateEvent H caller k m) (fun _ _ => True) env s ↔ Accepts s p.2.eventType m := by
  have hk := (List.getElem?_eq_some_iff.1 hp).1
  obtain ⟨ts, hprev⟩ := h.holds.prevLink_run H env hk.le
  have hversion : ∀ t : State D, (currentContractVersion : Fn D ℕ).run env t =
      .ok ((t.inst .contractVersion ()).getD 1, t) := fun _ => rfl
  simp only [updateEvent, returns_bind, returns_requireAuth, returns_of_run (ha.passes env),
    returns_of_run h.totalEvents_run, returns_rejectIf, returns_load, returns_unwrap,
    h.holds.get_order hp, Option.some.injEq, exists_eq_left', h.holds.get_data hp, returns_checkMetadata,
    returns_getEnv, returns_ite, returns_pure, returns_of_run hprev, returns_of_run (hversion s),
    returns_publish, and_iff_right ha.auth, and_iff_right (not_le.2 hk)]
  refine and_iff_left ⟨fun _ => trivial, fun _ => ?_⟩
  exact (returns_reviseEvent h.dense).mono fun _ _ ht => (returns_reparent ht).mono fun _ _ _ => trivial

/-- **A rollback returns** when the version exists. -/
theorem LogInv.returns_rollbackEvent (hk : k < L.length) {v : ℕ} :
    Returns (rollbackEvent H caller k v) (fun _ _ => True) env s ↔ v < (historyOf s k).length := by
  have hp : L[k]? = some L[k] := List.getElem?_eq_getElem hk
  obtain ⟨ts, hprev⟩ := h.holds.prevLink_run H env hk.le
  have hversion : ∀ t : State D, (currentContractVersion : Fn D ℕ).run env t =
      .ok ((t.inst .contractVersion ()).getD 1, t) := fun _ => rfl
  simp only [rollbackEvent, returns_bind, returns_requireAuth, returns_of_run (ha.passes env),
    returns_of_run h.totalEvents_run, returns_rejectIf, returns_load, returns_unwrap,
    returns_of_run (h.getEventHistory_run hk), h.holds.get_order hp, Option.some.injEq, exists_eq_left',
    returns_getEnv, returns_ite, returns_pure, returns_of_run hprev, returns_of_run (hversion s),
    returns_publish, and_iff_right ha.auth, not_le, and_iff_right hk]
  refine and_iff_left_of_imp fun hv => ⟨_, List.getElem?_eq_getElem hv, fun _ => trivial, fun _ => ?_⟩
  exact (returns_reviseEvent h.dense).mono fun _ _ _ => trivial

end

end AuditLedger
