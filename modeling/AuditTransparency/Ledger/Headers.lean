/-
  AuditLedger — the header of a stored event.

  Every function that stores an event stores its header under the same id, and those that change an
  event afterwards change nothing the header repeats (`headed_kept`).
-/
import AuditTransparency.Ledger.Batches
import AuditTransparency.Ledger.Keeping

namespace AuditLedger

open Soroban
open Soroban.Call hiding hasPers publish

variable {D : Type} [DecidableEq D] {H : Host D} {env : Env} {s s' : State D} {id : D} {e e' evt : Event D}
  {caller : Address} {k n : ℕ}

/-- The header of an event. -/
def headerOf (e : Event D) : EventHeader := ⟨e.index, e.timestamp, e.eventType, e.submitter⟩

/-- **Every stored event has its header beside it.** -/
def Headed (s : State D) : Prop :=
  ∀ id e, s.inst .eventData id = some e → s.inst .eventHeaderKey id = some (headerOf e)

theorem Headed.of_eq (h : Headed s) (hd : s'.inst .eventData = s.inst .eventData)
    (hh : s'.inst .eventHeaderKey = s.inst .eventHeaderKey) : Headed s' := by
  intro id e he
  rw [hd] at he
  rw [hh]
  exact h id e he

/-- An event and its header are written. -/
theorem Headed.stored (h : Headed s) (id : D) (evt : Event D)
    (hd : s'.inst .eventData = Function.update (s.inst .eventData) id (some evt))
    (hh : s'.inst .eventHeaderKey = Function.update (s.inst .eventHeaderKey) id (some (headerOf evt))) :
    Headed s' := by
  intro d e he
  rw [hd] at he
  rw [hh]
  by_cases hd : d = id
  · subst hd
    rw [Function.update_self] at he ⊢
    rw [Option.some.inj he]
  · rw [Function.update_of_ne hd] at he ⊢
    exact h d e he

/-- An event is written over, with the same header. -/
theorem Headed.rewritten (h : Headed s) (he : s.inst .eventData id = some e) (heq : headerOf e' = headerOf e) :
    Headed ((s.put .eventData id e').put .eventMeta id e') := by
  refine h.stored id e' (by simp) ?_
  have hid := h id e he
  rw [heq, ← hid, Function.update_eq_self]
  simp

theorem Headed.post_reviseEvent {vs : List (EventVersion D)} (h : Headed s) :
    Post (reviseEvent H k n vs id evt) (fun _ s' => Headed s') env s := by
  simp only [reviseEvent, replaceEvent, post_bind, post_store, post_pure]
  refine post_range' (fun _ _ t => Headed t) _ _ _ _ (h.stored id evt (by simp) ?_) ?_
  · simp [headerOf]
  intro j x t _ ht
  simp only [relinkEvent, post_bind, post_load, post_unwrap, post_store, post_pure]
  intro d _ e he
  refine ht.rewritten he ?_
  rfl

theorem Headed.post_reparent {currentId newId : D} (h : Headed s) :
    Post ((List.range n).foldlM (fun _ i => reparentEvent currentId newId i) ())
      (fun _ s' => Headed s') env s := by
  refine post_range (fun _ _ t => Headed t) h ?_
  intro j x t _ ht
  simp only [reparentEvent, post_bind, post_load, post_unwrap, post_doIf, post_store]
  intro d _ e he
  refine ⟨fun _ => ht.rewritten he ?_, fun _ => ht⟩
  rfl

theorem Headed.post_updateEvent {m : Bytes} (h : Headed s) :
    Post (updateEvent H caller k m) (fun _ s' => Headed s') env s := by
  unfold updateEvent
  refine post_bind_reads fun _ _ => post_bind_reads fun _ _ => post_bind_reads fun n _ => ?_
  simp only [post_bind, post_rejectIf, post_load, post_unwrap, post_getEnv, post_ite, post_pure, post_publish]
  intro _ d _ e _
  refine post_reads fun _ _ => ⟨fun _ => h, fun _ => post_reads fun prev _ => post_reads fun version _ => ?_⟩
  exact h.post_reviseEvent.mono fun _ s₁ h₁ => h₁.post_reparent.mono fun _ s₂ h₂ => h₂.of_eq rfl rfl

theorem Headed.post_rollbackEvent {v : ℕ} (h : Headed s) :
    Post (rollbackEvent H caller k v) (fun _ s' => Headed s') env s := by
  unfold rollbackEvent
  refine post_bind_reads fun _ _ => post_bind_reads fun _ _ => post_bind_reads fun n _ => ?_
  refine post_bind.2 (post_rejectIf.2 fun _ => post_bind_reads fun us _ => ?_)
  simp only [post_bind, post_rejectIf, post_load, post_unwrap, post_getEnv, post_ite, post_pure, post_publish]
  intro _ u _ d _
  refine ⟨fun _ => h, fun _ => post_reads fun prev _ => post_reads fun version _ => ?_⟩
  exact h.post_reviseEvent.mono fun _ s₁ h₁ => h₁.of_eq rfl rfl

theorem Headed.lay (h : Headed s) (q : Entry D) : Headed (lay s q) := by
  have hput : Headed (putEvent s q.1 q.2) := by
    refine h.stored q.1 q.2 ?_ ?_
    · simp [putEvent]
    · simp [putEvent, headerOf]
  unfold AuditLedger.lay
  split
  · exact hput
  · exact hput.of_eq (by simp) (by simp)

theorem Headed.of_laid (h : Headed s) {q : Entry D}
    (hlaid : ∀ f ∈ layKeys, s'.inst f = (AuditLedger.lay s q).inst f) :
    Headed s' := (h.lay q).of_eq (hlaid _ (by simp)) (hlaid _ (by simp))

theorem Headed.layAll (h : Headed s) (M : List (Entry D)) : Headed (layAll s M) := by
  induction M generalizing s with
  | nil => exact h
  | cons q M ih => exact ih (h.lay q)

theorem Headed.post_logEventWithHierarchy {x : Submission} (h : Headed s) :
    Post (logEventWithHierarchy H x.submitter x.eventType x.metadata x.category x.subEventType x.force)
      (fun _ s' => Headed s') env s := by
  refine (AuditLedger.post_logEventWithHierarchy.and post_logEventWithHierarchy_appended).mono ?_
  rintro _ s' ⟨hsub, ⟨hdup, -⟩ | ⟨-, cfg, q, -, -, -, happ⟩⟩
  · rcases hsub.outcome with ⟨k, -, -, -, hf⟩ | ⟨hnone, -⟩
    · exact h.of_eq (hf.inst (notMem_of_eval rfl)) (hf.inst (notMem_of_eval rfl))
    · rw [hnone] at hdup
      cases hdup
  · exact h.of_laid happ.laid

theorem Headed.post_logEvents {items : List Item} (h : Headed s) :
    Post (logEvents H items) (fun _ s' => Headed s') env s := by
  unfold logEvents
  refine post_bind_reads fun _ _ => post_bind_reads fun _ _ => post_bind_reads fun _ _ =>
    post_bind_reads fun _ _ => post_bind_reads fun _ _ => post_bind_reads fun _ _ => ?_
  rw [post_bind]
  refine (post_storeBatch_laid items _).mono ?_
  rintro acc s₁ ⟨hlaid, -⟩
  simp only [post_bind, post_store, post_pure]
  refine post_syncTotalEvents.mono fun _ s₂ hs₂ => ?_
  have hf : s₁.Frame [DataKey.config, DataKey.runtimeState] s₂ :=
    (Ledger.frame_put (by simp)).trans (hs₂.1.mono (by simp))
  have h₁ : Headed s₁ := (h.layAll _).of_eq (hlaid _ (by simp)) (hlaid _ (by simp))
  exact h₁.of_eq (hf.inst (notMem_of_eval rfl)) (hf.inst (notMem_of_eval rfl))

theorem headed_kept (H : Host D) : Kept H (fun _ => True) Headed where
  reads hs h := h.of_eq (hs _ (by simp)) (hs _ (by simp))
  logs _ _ h := h.post_logEventWithHierarchy
  batches _ _ h := h.post_logEvents
  updates _ _ _ _ h := h.post_updateEvent
  rollbacks _ _ _ _ h := h.post_rollbackEvent
  erases _ _ _ _ _ := fun _ _ _ => trivial
  enters _ _ := trivial

theorem Initialized.headed {g m : ℕ} (h : Initialized s g m) : Headed s := by
  intro d e he
  rw [(h.absent (f := .eventData) (by simp) d).1] at he
  cases he

end AuditLedger
