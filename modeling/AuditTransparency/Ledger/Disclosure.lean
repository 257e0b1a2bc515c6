/-
  AuditLedger — what the version history discloses.

  Every rewriting of an event, erasure included, first enters the event as it was
  into its version history, and nothing is ever removed from there.  So the history
  shows all metadata an event has had.

  * `next_retains`: what a history shows before a step it shows after it, and it
    shows the current metadata;
  * `history_disclosed`: metadata that has been erased is returned by
    `get_event_history` in every later state.
-/
import AuditTransparency.Ledger.Erasure
import AuditTransparency.Ledger.Histories

namespace AuditLedger

open Soroban
open Soroban.Call hiding hasPers publish

variable {D : Type} [DecidableEq D] {H : Host D} {env : Env} {s s' s'' : State D} {op : Op D} {r : Ret D}
  {R : List Record} {act : Action D} {i k : ℕ} {m : Bytes}

/-! ## Histories -/

/-- The metadata in the history of the event at `i`. -/
def shown (s : State D) (i : ℕ) : List Bytes := (historyOf s i).map (·.data.metadata)

/-- The history of every event shows its current metadata. -/
def Chronicled (s : State D) : Prop := ∀ i m, metadataAt s i = some m → m ∈ shown s i

/-- What the histories of `s` show those of `s'` show too, and the current metadata with it. -/
structure Retains (s s' : State D) : Prop where
  chronicled : Chronicled s'
  shown : ∀ i m, m ∈ AuditLedger.shown s i → m ∈ AuditLedger.shown s' i

theorem Retains.trans (h : Retains s s') (h' : Retains s' s'') : Retains s s'' :=
  ⟨h'.chronicled, fun i m hm => h'.shown i m (h.shown i m hm)⟩

theorem shown_of_versions {vs : List (EventVersion D)} (h : s.inst .eventVersions i = some vs) :
    shown s i = vs.map (·.data.metadata) := by
  rw [shown, historyOf, h]; rfl

theorem shown_of_none (h : s.inst .eventVersions i = none) : shown s i = (metadataAt s i).toList := by
  rw [shown, historyOf, h, metadataAt]
  rcases eventAt s i with _ | e <;> rfl

theorem shown_congr (hv : s'.inst .eventVersions i = s.inst .eventVersions i)
    (hm : metadataAt s' i = metadataAt s i) : shown s' i = shown s i := by
  rcases hs : s.inst .eventVersions i with _ | vs
  · rw [shown_of_none hs, shown_of_none (hv.trans hs), hm]
  · rw [shown_of_versions hs, shown_of_versions (hv.trans hs)]

/-- Only events have histories. -/
theorem HasLog.lt_of_versions (h : HasLog H s R) {vs : List (EventVersion D)}
    (hv : s.inst .eventVersions i = some vs) : i < R.length := by
  obtain ⟨L, h, rfl⟩ := h
  obtain ⟨p, hp, -⟩ := h.versions i vs hv
  rw [records, List.length_map]
  exact (List.getElem?_eq_some_iff.1 hp).1

theorem metadataAt_eq (s : State D) (i : ℕ) : metadataAt s i = (contentAt s i).map (·.1.metadata) := by
  rw [metadataAt, contentAt, Option.map_map]
  rfl

theorem retains_refl (hc : Chronicled s) : Retains s s := ⟨hc, fun _ _ hm => hm⟩

/-- Histories that show the current metadata are not empty. -/
theorem Chronicled.whole (hc : Chronicled s) (h : HasLog H s R) : Whole s := by
  intro i hnil
  obtain ⟨L, hL, -⟩ := h
  obtain ⟨p, hp, -⟩ := hL.versions i [] hnil
  have hm : metadataAt s i = some p.2.metadata := by
    rw [metadataAt, hL.holds.eventAt_eq, hp]
    rfl
  have hshown := hc i _ hm
  rw [shown_of_versions hnil] at hshown
  cases hshown

/-- New events have no history yet. -/
theorem retains_grows (hc : Chronicled s) (hg : Grows s s') : Retains s s' := by
  have hold : ∀ {i c}, contentAt s i = some c →
      shown s' i = shown s i ∧ metadataAt s' i = metadataAt s i := by
    intro i c hi
    have hm : metadataAt s' i = metadataAt s i := by
      rw [metadataAt_eq, metadataAt_eq, hg.kept i c hi, hi]
    exact ⟨shown_congr (congrFun hg.versions i) hm, hm⟩
  constructor
  · intro i m hm
    rcases hi : contentAt s i with _ | c
    · rw [shown_of_none ((congrFun hg.versions i).trans (hg.fresh i hi)), hm]
      simp
    · rw [(hold hi).1]
      exact hc i m ((hold hi).2 ▸ hm)
  · intro i m hm
    rcases hi : contentAt s i with _ | c
    · rw [shown_of_none (hg.fresh i hi), metadataAt_eq, hi] at hm
      cases hm
    · rw [(hold hi).1]
      exact hm

/-- A revision adds a version to one history. -/
theorem retains_revision (hc : Chronicled s) {v : EventVersion D} (hr : Revision s s' k v) :
    Retains s s' := by
  have hat : shown s' k = shown s k ++ [v.data.metadata] := by
    rw [shown_of_versions (by rw [hr.versions, Function.update_self]), List.map_append]
    rfl
  have hother : ∀ i ≠ k, shown s' i = shown s i ∧ metadataAt s' i = metadataAt s i := by
    intro i hi
    have hm : metadataAt s' i = metadataAt s i := by
      rw [metadataAt_eq, metadataAt_eq, hr.others i hi]
    exact ⟨shown_congr (by rw [hr.versions, Function.update_of_ne hi]) hm, hm⟩
  constructor
  · intro i m hm
    by_cases hi : i = k
    · subst hi
      rw [metadataAt_eq, hr.revised] at hm
      obtain rfl : v.data.metadata = m := Option.some.inj hm
      rw [hat]
      exact List.mem_append_right _ (List.mem_singleton_self _)
    · rw [(hother i hi).1]
      exact hc i m ((hother i hi).2 ▸ hm)
  · intro i m hm
    by_cases hi : i = k
    · subst hi
      rw [hat]
      exact List.mem_append_left _ hm
    · rw [(hother i hi).1]
      exact hm

theorem retains_alike (hc : Chronicled s) (ha : Alike s s') : Retains s s' := by
  have hm : ∀ i, metadataAt s' i = metadataAt s i := by
    intro i
    rw [metadataAt_eq, metadataAt_eq, ha.content]
  have hshown : ∀ i, AuditLedger.shown s' i = AuditLedger.shown s i := fun i =>
    shown_congr (congrFun ha.versions i) (hm i)
  constructor
  · intro i m hmeta
    rw [hshown]
    exact hc i m (hm i ▸ hmeta)
  · intro i m hmem
    rw [hshown]
    exact hmem

theorem retains_evolves (hc : Chronicled s) (hev : Evolves s s') : Retains s s' := by
  induction hev with
  | refl => exact retains_refl hc
  | alike _ ha ih => exact ih.trans (retains_alike ih.chronicled ha)
  | revise _ hr ih => exact ih.trans (retains_revision ih.chronicled hr)

/-! ## Steps -/

/-- **A step keeps what the histories show.** -/
theorem next_retains (hinj : Function.Injective H.sha256) (h : HasLog H s R) (hc : Chronicled s)
    (hn : Next H s act s') : Retains s s' := by
  rcases next_evolves hinj h (hc.whole h) hn with hev | hg
  · exact retains_evolves hc hev
  · exact retains_grows hc hg

/-- A state with a log, whose histories show the current metadata. -/
def Documented (H : Host D) (s : State D) : Prop := (∃ R, HasLog H s R) ∧ Chronicled s

theorem documented_next (hinj : Function.Injective H.sha256) (hn : Next H s act s') (h : Documented H s) :
    Documented H s' := by
  obtain ⟨⟨R, hR⟩, hc⟩ := h
  exact ⟨⟨_, next_hasLog hinj hR hn⟩, (next_retains hinj hR hc hn).chronicled⟩

theorem documented_of_run (hinj : Function.Injective H.sha256) {tr : List (State D × Action D)}
    {s₀ : State D}
    (h₀ : Init s₀) (hrun : Run (Next H) s₀ tr s) : Documented H s := by
  obtain ⟨g, n, hinit⟩ := initialized_of_init h₀
  refine hrun.invariant (C := fun _ _ => True) (I := fun s => Documented H s) ⟨⟨[], hinit.hasLog⟩, ?_⟩
    (fun s act s' _ hn h => documented_next hinj hn h) fun _ _ => trivial
  intro i m hm
  rw [(hinit.hasLog (H := H)).metadataAt] at hm
  cases hm

/-! ## After an erasure -/

/-- **The metadata `m` of the event at `i` is disclosed**: the event counts as erased, and its
    history shows `m`. -/
structure Discloses (s : State D) (i : ℕ) (m : Bytes) : Prop where
  erased : ∀ env, (isEventErased i : Fn D Bool).run env s = .ok (true, s)
  history : ∀ env, ∃ vs, (getEventHistory i).run env s = .ok (vs, s) ∧ ∃ v ∈ vs, v.data.metadata = m

theorem discloses_of_shown (h : HasLog H s R) (hm : m ∈ shown s i)
    (he : (s.inst .erasureRecord i).map (·.erased) = some true) : Discloses s i m := by
  constructor
  · intro env
    simp [isEventErased, run_bind, Except.bind, he]
  · intro env
    have hi : i < R.length := by
      rcases hv : s.inst .eventVersions i with _ | vs
      · rw [shown_of_none hv, h.metadataAt] at hm
        by_contra hge
        rw [List.getElem?_eq_none (not_lt.1 hge)] at hm
        cases hm
      · exact h.lt_of_versions hv
    obtain ⟨L, hL, rfl⟩ := h
    rw [records, List.length_map] at hi
    obtain ⟨v, hv, rfl⟩ := List.mem_map.1 hm
    exact ⟨historyOf s i, hL.getEventHistory_run hi, v, hv, rfl⟩

/-- **Erased metadata is disclosed in every later state.** -/
theorem history_disclosed (hinj : Function.Injective H.sha256) {tr₁ tr₂ : List (State D × Action D)}
    {s₁ : State D} (h : History H (tr₁ ++ (s₁, act) :: tr₂) s) (herased : i ∈ act.erases s₁)
    (hm : metadataAt s₁ i = some m) : (∀ p ∈ tr₂, Discloses p.1 i m) ∧ Discloses s i m := by
  obtain ⟨s₀, h₀, hrun⟩ := h
  obtain ⟨s₂, hbefore, hstep, hafter⟩ := hrun.split
  obtain ⟨⟨R, hR⟩, hc⟩ := documented_of_run hinj h₀ hbefore
  have hall := hafter.always (C := fun _ _ => True)
    (I := fun t => Documented H t ∧ m ∈ shown t i ∧ (t.inst .erasureRecord i).map (·.erased) = some true)
    ?_ ?_ fun _ _ => trivial
  · constructor
    · intro p hp
      obtain ⟨⟨⟨R', hR'⟩, -⟩, hshown, he⟩ := hall.1 p hp
      exact discloses_of_shown hR' hshown he
    · obtain ⟨⟨⟨R', hR'⟩, -⟩, hshown, he⟩ := hall.2
      exact discloses_of_shown hR' hshown he
  · -- the metadata was shown before the erasure
    have hret := next_retains hinj hR hc hstep
    refine ⟨documented_next hinj hstep ⟨⟨R, hR⟩, hc⟩, hret.shown i m (hc i m hm), ?_⟩
    obtain ⟨e, rec, -, hrec, hflag, -⟩ := ((next_erasureRecord hinj hR hstep i).1 herased).2.2
    rw [hrec, Option.map_some, hflag]
  · rintro s act s' - hn ⟨⟨⟨R, hR⟩, hc⟩, hshown, he⟩
    refine ⟨documented_next hinj hn ⟨⟨R, hR⟩, hc⟩, (next_retains hinj hR hc hn).shown i m hshown, ?_⟩
    by_cases hi : i ∈ act.erases s
    · obtain ⟨e, rec, -, hrec, hflag, -⟩ := ((next_erasureRecord hinj hR hn i).1 hi).2.2
      rw [hrec, Option.map_some, hflag]
    · rw [(next_erasureRecord hinj hR hn i).2 hi]
      exact he

theorem history_disclosed_requestScript : ∃ s, Reachable plainHost s ∧ metadataAt s 0 = some [] ∧
    Discloses s 0 [1] := by
  let s₀ : State Bytes := deployed (openEnv 10) (account 65) 100 50
  obtain ⟨s, hs⟩ : ∃ s, play plainHost s₀ (requestScript ++ approval :: sweepScript) = some s :=
    Option.isSome_iff_exists.1 (by decide +kernel)
  obtain ⟨s₁, r, s₂, hpre, -, -, hist⟩ := history_around (init_deployed rfl 100 50) hs
  have before : (play plainHost s₀ requestScript).map (fun s =>
      (metadataAt s 0, Op.erases approval.1 s approval.2)) = some (some [1], [0]) := by decide +kernel
  have after : (play plainHost s₀ (requestScript ++ approval :: sweepScript)).map (metadataAt · 0) =
      some (some []) := by decide +kernel
  rw [hpre] at before
  rw [hs] at after
  simp only [Option.map_some, Option.some.injEq, Prod.mk.injEq] at before after
  refine ⟨s, ⟨_, hist⟩, after, (history_disclosed Function.injective_id hist ?_ before.1).2⟩
  have herases : (Action.call approval.1 approval.2).erases s₁ = [0] := before.2
  exact herases ▸ List.mem_singleton_self 0

/-- After an approved erasure, `get_event_history` still returns the metadata. -/
theorem erased_metadata_returned : ∃ tr₁ s₁ s,
    History plainHost (tr₁ ++ [(s₁, .call approval.1 approval.2)]) s ∧
    0 ∈ (Action.call approval.1 approval.2).erases s₁ ∧ metadataAt s₁ 0 = some [1] ∧
    Discloses s 0 [1] := by
  let s₀ : State Bytes := deployed (openEnv 10) (account 65) 100 50
  obtain ⟨s, hs⟩ : ∃ s, play plainHost s₀ (requestScript ++ approval :: []) = some s :=
    Option.isSome_iff_exists.1 (by decide +kernel)
  obtain ⟨s₁, r, s₂, hpre, -, -, hist⟩ := history_around (init_deployed rfl 100 50) hs
  have before : (play plainHost s₀ requestScript).map (fun s =>
      (metadataAt s 0, Op.erases approval.1 s approval.2)) = some (some [1], [0]) := by decide +kernel
  have after : (play plainHost s₀ (requestScript ++ approval :: [])).map (fun s =>
      (shown s 0, (s.inst .erasureRecord 0).map (·.erased))) = some ([[1], []], some true) := by
    decide +kernel
  rw [hpre] at before
  rw [hs] at after
  simp only [Option.map_some, Option.some.injEq, Prod.mk.injEq] at before after
  obtain ⟨hshown, hflag⟩ := after
  obtain ⟨R, hR⟩ := hasLog_of_history Function.injective_id hist
  refine ⟨_, s₁, s, hist, ?_, before.1, discloses_of_shown hR (by rw [hshown]; simp) hflag⟩
  have herases : (Action.call approval.1 approval.2).erases s₁ = [0] := before.2
  exact herases ▸ List.mem_singleton_self 0

end AuditLedger
