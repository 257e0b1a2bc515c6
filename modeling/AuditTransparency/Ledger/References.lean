/-
  AuditLedger — the checksum of an archived event.

  A reference records the hash of the event it stands for, and keeps it whatever becomes of the live
  event.  `verify_archived_event_checksum` compares it with the hash the candidate carries, and looks
  at nothing else of the candidate.

  * `step_referred`, `referred_next`: the reference an event gets, and that it stays;
  * `checksum_binds_iff`: for which candidates the verdict is the one on the payload.
-/
import AuditTransparency.Ledger.Archive

namespace AuditLedger

open Soroban
open Soroban.Call hiding hasPers publish

variable {D : Type} [DecidableEq D] {H : Host D} {env : Env} {s s' s₁ s₂ : State D} {op : Op D} {r : Ret D}
  {act : Action D} {id : D} {evt candidate : Event D} {config : ArchiveConfig} {caller : Address} {cutoff : ℕ}

/-- `verify_archived_event_checksum` -/
def verifyArchivedEventChecksum (id : D) (candidate : Event D) : Fn D Bool := do
  let proof ← get .archivedEventRefKey id
  onSome proof (fun proof => pure (candidate.eventHash = proof.checksum)) (pure false)

/-! ## The reference -/

/-- `id` is archived, and its reference records `evt`. -/
structure Referred (s : State D) (id : D) (evt : Event D) : Prop where
  flag : s.inst .eventArchivedFlag id ≠ none
  proof : ∃ proof, s.inst .archivedEventRefKey id = some proof ∧ proof.checksum = evt.eventHash

/-- A reference that is there is not replaced. -/
theorem Referred.post_archiveEvents (h : Referred s id evt) :
    Post (archiveEvents H caller cutoff) (fun _ s' => Referred s' id evt) env s := by
  refine post_archiveEvents_of (fun _ t => Referred t id evt) ?_ ?_ h
  · rintro _ t t' hs ⟨hf, hp⟩
    exact ⟨by rwa [hs _ (by simp)], by rwa [hs _ (by simp)]⟩
  · rintro acc t x e ⟨hf, hp⟩ hflag -
    have hx : id ≠ x := fun he => hf (he ▸ hflag)
    unfold archiveCopy
    refine post_bind_reads fun header _ => post_bind.2 ?_
    refine Post.with_frame (L := layout D) (W := [.archivedEventHeaderKey]) fun _ t₀ _ hfr => ?_
    have hflag₀ : t₀.inst .eventArchivedFlag = t.inst .eventArchivedFlag := hfr.inst (notMem_of_eval rfl)
    have href₀ : t₀.inst .archivedEventRefKey = t.inst .archivedEventRefKey := hfr.inst (notMem_of_eval rfl)
    refine post_bind_reads fun metadata _ => post_bind_reads fun compressed _ =>
      post_ite.2 ⟨fun _ => ?_, fun _ => ?_⟩
    · simp only [post_bind, post_store, post_getEnv, post_addChecked, post_pure]
      exact fun _ => ⟨by simpa [Function.update_of_ne hx, hflag₀] using hf,
        by simpa [Function.update_of_ne hx, href₀] using hp⟩
    · simp only [post_bind, post_store, post_pure]
      exact ⟨by simpa [Function.update_of_ne hx, hflag₀] using hf, by simpa [href₀] using hp⟩

/-- An event that is archived under such a configuration gets a reference with its hash. -/
theorem post_archiveEvents_referred (hoff : (archiveConfigOf s).offchainStorage = true)
    (hnew : s.inst .eventArchivedFlag id = none) :
    Post (archiveEvents H caller cutoff) (fun _ s' => s'.inst .eventArchivedFlag id ≠ none →
      ∃ evt, s.inst .eventData id = some evt ∧ Referred s' id evt) env s := by
  let I (_ : ℕ) (t : State D) : Prop := t.inst .eventData = s.inst .eventData ∧
    (t.inst .eventArchivedFlag id ≠ none → ∃ evt, s.inst .eventData id = some evt ∧ Referred t id evt)
  refine (post_archiveEvents_of I ?_ ?_ ⟨rfl, fun hf => absurd hnew hf⟩).mono fun _ s' h => h.2
  · rintro _ t t' hs ⟨hd, hall⟩
    refine ⟨(hs _ (by simp)).trans hd, fun hf => ?_⟩
    rw [hs _ (by simp)] at hf
    obtain ⟨evt, hevt, hfl, hp⟩ := hall hf
    exact ⟨evt, hevt, by rwa [hs _ (by simp)], by rwa [hs _ (by simp)]⟩
  · rintro acc t x e ⟨hd, hall⟩ hflag he
    unfold archiveCopy
    refine post_bind_reads fun header _ => post_bind.2 ?_
    refine Post.with_frame (L := layout D) (W := [.archivedEventHeaderKey]) fun _ t₀ _ hfr => ?_
    have hd₀ : t₀.inst .eventData = s.inst .eventData := (hfr.inst (notMem_of_eval rfl)).trans hd
    have hflag₀ : t₀.inst .eventArchivedFlag = t.inst .eventArchivedFlag := hfr.inst (notMem_of_eval rfl)
    have href₀ : t₀.inst .archivedEventRefKey = t.inst .archivedEventRefKey := hfr.inst (notMem_of_eval rfl)
    refine post_bind_reads fun metadata _ => post_bind_reads fun compressed _ => ?_
    rw [if_pos hoff]
    simp only [post_bind, post_store, post_getEnv, post_addChecked, post_pure]
    refine fun _ => ⟨by simpa using hd₀, fun hf => ?_⟩
    by_cases hx : id = x
    · subst hx
      rw [hd] at he
      exact ⟨e, he, by simp, _, by simp; rfl, rfl⟩
    · simp only [Ledger.put_inst] at hf
      obtain ⟨evt, hevt, hfl, hp⟩ := hall (by simpa [Function.update_of_ne hx, hflag₀] using hf)
      exact ⟨evt, hevt, by simpa [Function.update_of_ne hx, hflag₀] using hfl,
        by simpa [Function.update_of_ne hx, href₀] using hp⟩

theorem step_referred (hs : Step H env (.archiveEvents caller cutoff) s r s')
    (hoff : (archiveConfigOf s).offchainStorage = true) (hnew : s.inst .eventArchivedFlag id = none)
    (hflag : s'.inst .eventArchivedFlag id ≠ none) :
    ∃ evt, s.inst .eventData id = some evt ∧ Referred s' id evt := by
  have key : Post (exec H (.archiveEvents caller cutoff)) (fun _ s' => s'.inst .eventArchivedFlag id ≠ none →
      ∃ evt, s.inst .eventData id = some evt ∧ Referred s' id evt) env s := by
    simp only [exec, post_bind, post_pure]
    exact post_archiveEvents_referred hoff hnew
  exact key.of_run hs hflag

/-- Every step keeps it. -/
theorem referred_next (hn : Next H s act s') (h : Referred s id evt) : Referred s' id evt := by
  cases act with
  | call env op =>
    obtain ⟨r, hs⟩ := hn
    have framed : DataKey.eventArchivedFlag ∉ op.writes → DataKey.archivedEventRefKey ∉ op.writes →
        Referred s' id evt := by
      intro hf hr
      have hframe := (exec_writes H op).of_run hs
      exact ⟨by rw [hframe.inst hf]; exact h.flag, by rw [hframe.inst hr]; exact h.proof⟩
    cases op with
    | archiveEvents a c =>
      have key : Post (exec H (.archiveEvents a c)) (fun _ s' => Referred s' id evt) env s := by
        simp only [exec, post_bind, post_pure]
        exact h.post_archiveEvents
      exact key.of_run hs
    | _ => exact framed (notMem_of_eval rfl) (notMem_of_eval rfl)
  | expireTemporary f k | expirePersistent f k =>
    rw [Next] at hn; subst hn
    exact ⟨h.flag, h.proof⟩

/-! ## The verdict -/

/-- Type, submitter, metadata, timestamp and index are the same. -/
def SamePayload (candidate evt : Event D) : Prop :=
  candidate.eventType = evt.eventType ∧ candidate.submitter = evt.submitter ∧
    candidate.metadata = evt.metadata ∧ candidate.timestamp = evt.timestamp ∧ candidate.index = evt.index

theorem Referred.verify_run (h : Referred s id evt) :
    (verifyArchivedEventChecksum id candidate).run env s =
      .ok (decide (candidate.eventHash = evt.eventHash), s) := by
  obtain ⟨proof, hproof, hsum⟩ := h.proof
  rw [verifyArchivedEventChecksum, run_bind_ok _ _ (run_load ..), hproof, onSome, run_pure, hsum]

/-- **The verdict is the one on the payload exactly for the candidates of which both the payload and the
    hash are those of the archived event, or neither.** -/
theorem checksum_binds_iff {tr : List (State D × Action D)}
    (hs : Step H env (.archiveEvents caller cutoff) s₁ r s₂)
    (hoff : (archiveConfigOf s₁).offchainStorage = true)
    (hnew : s₁.inst .eventArchivedFlag id = none) (hflag : s₂.inst .eventArchivedFlag id ≠ none)
    (hrun : Run (Next H) s₂ tr s) :
    ∃ evt, s₁.inst .eventData id = some evt ∧ ∀ candidate env,
      (((verifyArchivedEventChecksum id candidate).run env s = .ok (true, s) ↔ SamePayload candidate evt) ↔
        (candidate.eventHash = evt.eventHash ↔ SamePayload candidate evt)) := by
  obtain ⟨evt, hevt, h₂⟩ := step_referred hs hoff hnew hflag
  have hlast : Referred s id evt := hrun.invariant (C := fun _ _ => True) (I := fun s => Referred s id evt) h₂
    (fun _ _ _ _ hn h => referred_next hn h) fun _ _ => trivial
  refine ⟨evt, hevt, fun candidate env => ?_⟩
  have hverdict : (verifyArchivedEventChecksum id candidate).run env s = .ok (true, s) ↔
      candidate.eventHash = evt.eventHash := by
    rw [hlast.verify_run]
    simp
  rw [hverdict]

/-- An event, and a configuration that keeps references only. -/
def referredScript : List (Env × Op Bytes) :=
  storedScript [1] ++ [(openEnv 12, .setArchiveConfig (account 65) ⟨true, [104], 1⟩)]

/-- The archived event is verified, after the live one was updated. -/
theorem checksum_binds_referredScript : ∃ s evt, Reachable plainHost s ∧ evt.metadata = [1] ∧
    s.inst .eventOrder 0 ≠ some (storedId [1]) ∧
    (verifyArchivedEventChecksum (storedId [1]) evt).run (openEnv 14) s = .ok (true, s) := by
  let s₀ : State Bytes := deployed (openEnv 10) (account 65) 100 50
  obtain ⟨s, hs⟩ : ∃ s, play plainHost s₀ (referredScript ++
      (openEnv 12, .archiveEvents (account 65) 12) :: [(openEnv 13, .updateEvent (account 65) 0 [5])]) = some s :=
    Option.isSome_iff_exists.1 (by decide +kernel)
  obtain ⟨s₁, r, s₂, hpre, hstep, hpost, hist⟩ := history_around (init_deployed rfl 100 50) hs
  have before : (play plainHost s₀ referredScript).map (fun s => ((archiveConfigOf s).offchainStorage,
      s.inst .eventArchivedFlag (storedId [1]), (s.inst .eventData (storedId [1])).map (·.metadata))) =
      some (true, none, some [1]) := by decide +kernel
  have after : (play plainHost s₀ (referredScript ++ [(openEnv 12, .archiveEvents (account 65) 12)])).map
      (fun s => s.inst .eventArchivedFlag (storedId [1])) = some (some true) := by decide +kernel
  have last : (play plainHost s₀ (referredScript ++ (openEnv 12, .archiveEvents (account 65) 12) ::
      [(openEnv 13, .updateEvent (account 65) 0 [5])])).map (fun s =>
      decide (s.inst .eventOrder 0 = some (storedId [1]))) = some false := by decide +kernel
  rw [hpre] at before
  rw [play_snoc hpre hstep] at after
  rw [hs] at last
  simp only [Option.map_some, Option.some.injEq, Prod.mk.injEq] at before after last
  obtain ⟨hoff, hnew, hmeta⟩ := before
  obtain ⟨evt, hevt, hall⟩ := checksum_binds_iff hstep hoff hnew (by rw [after]; simp) (run_of_play hpost)
  have hm : evt.metadata = [1] := by
    rw [hevt] at hmeta
    exact Option.some.inj hmeta
  have hsame : SamePayload evt evt := ⟨rfl, rfl, rfl, rfl, rfl⟩
  exact ⟨s, evt, ⟨_, hist⟩, hm, of_decide_eq_false last, ((hall evt (openEnv 14)).2 (iff_of_true rfl hsame)).2 hsame⟩

/-- Other metadata passes, with the hash of the event. -/
theorem forged_candidate_verified : ∃ tr s₁ s₂ evt candidate,
    History plainHost (tr ++ [(s₁, .call (openEnv 12) (.archiveEvents (account 65) 12))]) s₂ ∧
    (archiveConfigOf s₁).offchainStorage = true ∧ s₁.inst .eventArchivedFlag (storedId [1]) = none ∧
    s₂.inst .eventArchivedFlag (storedId [1]) ≠ none ∧ s₁.inst .eventData (storedId [1]) = some evt ∧
    evt.metadata = [1] ∧ candidate.metadata = [9] ∧
    (verifyArchivedEventChecksum (storedId [1]) candidate).run (openEnv 13) s₂ = .ok (true, s₂) := by
  let s₀ : State Bytes := deployed (openEnv 10) (account 65) 100 50
  obtain ⟨s₂, hs⟩ : ∃ s, play plainHost s₀ (referredScript ++
      (openEnv 12, .archiveEvents (account 65) 12) :: []) = some s :=
    Option.isSome_iff_exists.1 (by decide +kernel)
  obtain ⟨s₁, r, s, hpre, hstep, hpost, hist⟩ := history_around (init_deployed rfl 100 50) hs
  obtain rfl : s = s₂ := Option.some.inj hpost
  have before : (play plainHost s₀ referredScript).map (fun s => ((archiveConfigOf s).offchainStorage,
      s.inst .eventArchivedFlag (storedId [1]), (s.inst .eventData (storedId [1])).map (·.metadata))) =
      some (true, none, some [1]) := by decide +kernel
  have after : (play plainHost s₀ (referredScript ++ (openEnv 12, .archiveEvents (account 65) 12) :: [])).map
      (fun s => s.inst .eventArchivedFlag (storedId [1])) = some (some true) := by decide +kernel
  rw [hpre] at before
  rw [hs] at after
  simp only [Option.map_some, Option.some.injEq, Prod.mk.injEq] at before after
  obtain ⟨hoff, hnew, hmeta⟩ := before
  have hflag : s.inst .eventArchivedFlag (storedId [1]) ≠ none := by
    rw [after]
    simp
  obtain ⟨evt, hevt, href⟩ := step_referred hstep hoff hnew hflag
  rw [hevt] at hmeta
  refine ⟨_, s₁, s, evt, { evt with metadata := [9] }, by simpa [traceOf] using hist, hoff, hnew, hflag, hevt,
    Option.some.inj hmeta, rfl, ?_⟩
  rw [href.verify_run, decide_eq_true rfl]

end AuditLedger
