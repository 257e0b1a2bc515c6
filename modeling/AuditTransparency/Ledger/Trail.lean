/-
  AuditLedger — the operational trail.

  Events of the category `operational` are recorded by `log_operational_action`, for
  owners and registered recorders only, and neither path of erasure touches them.
  The other entry points do not know the category: `log_event` takes it from its
  caller, and `update_event` and `rollback_event` rewrite every event.

  * `trailKept_next`: a step keeps the trail exactly when it is none of these
    (`Action.keepsTrail`);
  * `history_trail`: the trail is kept in every state of exactly the runs whose steps
    keep it.
-/
import AuditTransparency.Ledger.Erasure

namespace AuditLedger

open Soroban
open Soroban.Call hiding hasPers publish

variable {D : Type} [DecidableEq D] {H : Host D} {env : Env} {s s' : State D} {op : Op D} {r : Ret D}
  {R : List Record} {act : Action D} {tr : List (State D × Action D)}

/-! ## The trail -/

/-- `is_ops_recorder` -/
def opsRecorder (s : State D) (a : Address) : Bool :=
  (a ∈ (s.inst .owners ()).getD [] ∨ s.inst .owner () = some a) ∨
    a ∈ (s.inst .opsAuditRecorders ()).getD []

theorem isAddrOpsRecorder_run {a : Address} :
    (isAddrOpsRecorder a : Fn D Bool).run env s = .ok (opsRecorder s a, s) := by
  simp [isAddrOpsRecorder, isAddrOwner, getOwners, run_bind, Except.bind, opsRecorder]

/-- The records as they were first logged, with the state each was logged in. -/
def logged (H : Host D) (tr : List (State D × Action D)) : List (State D × Record) :=
  tr.flatMap fun p => (p.2.adds H p.1).map fun q => (p.1, q)

/-- **The trail is kept**: every operational event is what was first logged at its position, by
    an owner or a registered recorder of that moment. -/
def TrailKept (H : Host D) (tr : List (State D × Action D)) (s : State D) : Prop :=
  ∀ i e, eventAt s i = some e → e.category = operationalCategory →
    ∃ s₁, (logged H tr)[i]? = some (s₁, e.record) ∧ opsRecorder s₁ e.submitter = true

/-- The submission of an entry point that takes the category from its caller. -/
def Op.categorized : Op D → Option Submission
  | .logEvent a t m c e f => some ⟨a, t, m, c, e, f⟩
  | .logEventWithCustomKey a t m c e f _ => some ⟨a, t, m, c, e, f⟩
  | _ => none

/-- The step neither adds to the trail for someone else, nor changes it. -/
def Action.keepsTrail (H : Host D) (s : State D) : Action D → Prop
  | .call env op =>
    (∀ x, op.categorized = some x → x.category = some operationalCategory →
      duplicateOf H env (op.enter s) x = none → opsRecorder s x.submitter = true) ∧
    ∀ p ∈ op.rewrites env s, ∀ e, eventAt s p.1 = some e → e.category = operationalCategory →
      e.metadata = p.2
  | _ => True

instance (H : Host D) (s : State D) (act : Action D) : Decidable (act.keepsTrail H s) := by
  cases act with
  | call env op =>
    refine @instDecidableAnd _ _ ?_ ?_
    · exact decidable_of_iff (∀ x ∈ op.categorized, x.category = some operationalCategory →
        duplicateOf H env (op.enter s) x = none → opsRecorder s x.submitter = true)
          (by simp [Option.mem_def])
    · exact decidable_of_iff (∀ p ∈ op.rewrites env s, ∀ e ∈ eventAt s p.1,
        e.category = operationalCategory → e.metadata = p.2) (by simp [Option.mem_def])
  | expireTemporary f k | expirePersistent f k => exact instDecidableTrue

/-! ## One step -/

/-- Who adds to the trail. -/
theorem opsRecorder_of_adds (hs : Step H env op s r s')
    (hk : ∀ x, op.categorized = some x → x.category = some operationalCategory →
      duplicateOf H env (op.enter s) x = none → opsRecorder s x.submitter = true) :
    ∀ q ∈ op.adds H env s, q.category = operationalCategory → opsRecorder s q.submitter = true := by
  intro q hq hcat
  have hsub : ∀ x, op.submission = some x →
      duplicateOf H env (op.enter s) x = none ∧ x.category.getD "general" = operationalCategory ∧
        q.submitter = x.submitter := by
    intro x hx
    simp only [Op.adds, hx] at hq
    split_ifs at hq with hdup
    · cases hq
    · obtain rfl := List.mem_singleton.1 hq
      exact ⟨by simpa using hdup, hcat, rfl⟩
  have hgeneral : "general" ≠ operationalCategory := by decide
  cases op with
  | logEvent a t m c e f =>
    obtain ⟨hdup, hc, hq'⟩ := hsub _ rfl
    rw [hq']
    refine hk _ rfl ?_ hdup
    rcases c with _ | c
    · exact absurd hc hgeneral
    · exact congrArg some hc
  | logEventWithCustomKey a t m c e f key =>
    obtain ⟨hdup, hc, hq'⟩ := hsub _ rfl
    rw [hq']
    refine hk _ rfl ?_ hdup
    rcases c with _ | c
    · exact absurd hc hgeneral
    · exact congrArg some hc
  | logEventWithNonce a t m n =>
    obtain ⟨-, hc, -⟩ := hsub _ rfl
    exact absurd hc hgeneral
  | logEventSigned a t m n =>
    obtain ⟨-, hc, -⟩ := hsub _ rfl
    exact absurd hc hgeneral
  | logOperationalAction a t m =>
    obtain ⟨-, -, hq'⟩ := hsub _ rfl
    rw [hq']
    have key : Post (exec H (.logOperationalAction a t m)) (fun _ _ => opsRecorder s a = true) env s := by
      simp only [exec, logOperationalAction, post_bind, post_pure, post_rejectIf]
      refine post_reads fun _ _ => (post_of_run isAddrOpsRecorder_run).2 fun hrec => ?_
      exact fun _ _ _ => by simpa using hrec
    exact key.of_run hs
  | logEvents items =>
    obtain ⟨x, -, rfl⟩ := List.mem_map.1 hq
    exact absurd hcat hgeneral
  | _ => cases hq

theorem logged_snoc : logged H (tr ++ [(s, act)]) = logged H tr ++ (act.adds H s).map fun q => (s, q) := by
  simp [logged]

/-- The records a step adds come after the log. -/
theorem next_added (hinj : Function.Injective H.sha256) (h : HasLog H s R) (hn : Next H s act s')
    (j : ℕ) :
    (eventAt s' (R.length + j)).map Event.record = (act.adds H s)[j]? := by
  rw [(next_hasLog hinj h hn).eventAt]
  cases act with
  | call env op =>
    rw [Action.logAfter, List.getElem?_append_right (by rw [length_amendAll]; omega), length_amendAll,
      Nat.add_sub_cancel_left]
    rfl
  | expireTemporary f k | expirePersistent f k => simp [Action.logAfter, Action.adds]

/-- A step changes nothing of an event but its metadata. -/
theorem next_core (hinj : Function.Injective H.sha256) (h : HasLog H s R) (hn : Next H s act s') {i : ℕ}
    (hi : i < R.length) :
    (eventAt s' i).map (·.record.core) = (eventAt s i).map (·.record.core) := by
  have hcore : ((eventAt s' i).map Event.record).map Record.core =
      ((eventAt s i).map Event.record).map Record.core := by
    rw [(next_hasLog hinj h hn).eventAt, h.eventAt]
    cases act with
    | call env op =>
      rw [Action.logAfter, List.getElem?_append_left (by rw [length_amendAll]; exact hi), core_amendAll]
    | expireTemporary f k | expirePersistent f k => rfl
  rw [Option.map_map, Option.map_map] at hcore
  exact hcore

omit [DecidableEq D] in
theorem submission_of_categorized {x : Submission} (hx : op.categorized = some x) :
    op.submission = some x := by
  cases op <;> first | exact hx | cases hx

/-- An operational event of the log is not erased. -/
theorem not_erased_of_operational (hinj : Function.Injective H.sha256) (h : HasLog H s R)
    (hn : Next H s act s') {i : ℕ} {q : Record} (hq : R[i]? = some q)
    (hcat : q.category = operationalCategory) : i ∉ act.erases s := by
  intro hi
  obtain ⟨⟨e, he, hne⟩, -⟩ := (next_erasureRecord hinj h hn i).1 hi
  have hlog := h.eventAt i
  rw [he, hq, Option.map_some, Option.some.injEq] at hlog
  exact hne (by rw [← hlog] at hcat; exact hcat)

/-- **A step keeps the trail exactly when it neither changes it nor adds to it for someone else.** -/
theorem trailKept_next (hinj : Function.Injective H.sha256) (h : HasLog H s R)
    (hlen : (logged H tr).length = R.length) (hn : Next H s act s') (hk : TrailKept H tr s) :
    TrailKept H (tr ++ [(s, act)]) s' ↔ act.keepsTrail H s := by
  -- an operational event that was there, before and after
  have hold : ∀ i e, eventAt s i = some e → e.category = operationalCategory →
      i < R.length ∧ ∃ e', eventAt s' i = some e' ∧ e'.category = operationalCategory ∧
        e'.submitter = e.submitter ∧
        (e'.record = e.record ↔ ∀ m, (i, m) ∈ act.rewrites s → e.metadata = m) := by
    intro i e he hcat
    have hq : R[i]? = some e.record := by rw [← h.eventAt, he]; rfl
    obtain ⟨m, hm, hiff⟩ := next_record hinj h hn hq (not_erased_of_operational hinj h hn hq hcat)
    obtain ⟨e', he', hrec⟩ := Option.map_eq_some_iff.1 hm
    refine ⟨(List.getElem?_eq_some_iff.1 hq).1, e', he', ?_, ?_, ?_⟩
    · exact (congrArg Record.category hrec).trans hcat
    · exact congrArg Record.submitter hrec
    · rw [hrec]
      refine Iff.trans ⟨fun hr => ?_, fun hr => ?_⟩ hiff
      · exact congrArg Record.metadata hr
      · rw [hr]
  have hfirst : ∀ i, i < R.length → (logged H (tr ++ [(s, act)]))[i]? = (logged H tr)[i]? := by
    intro i hi
    rw [logged_snoc, List.getElem?_append_left (by rw [hlen]; exact hi)]
  have hlast : ∀ j, (logged H (tr ++ [(s, act)]))[R.length + j]? =
      ((act.adds H s)[j]?).map fun q => (s, q) := by
    intro j
    rw [logged_snoc, List.getElem?_append_right (by omega), ← hlen, Nat.add_sub_cancel_left,
      List.getElem?_map]
  constructor
  · intro hk'
    cases act with
    | call env op =>
      constructor
      · intro x hx hcat hdup
        have hadds : op.adds H env s = [x.record env.timestamp] := by
          simp [Op.adds, submission_of_categorized hx, hdup]
        have hnew := next_added hinj h hn 0
        rw [Action.adds, hadds] at hnew
        obtain ⟨e, he, hrec⟩ := Option.map_eq_some_iff.1 hnew
        have hcat' : e.category = operationalCategory := by
          have hget : x.category.getD "general" = operationalCategory := by rw [hcat]; rfl
          exact (congrArg Record.category hrec).trans hget
        obtain ⟨s₁, hs₁, hrecorder⟩ := hk' _ e he hcat'
        rw [hlast 0, Action.adds, hadds] at hs₁
        obtain ⟨rfl, -⟩ := Prod.mk.inj (Option.some.inj hs₁)
        have hsub : e.submitter = x.submitter := congrArg Record.submitter hrec
        rw [← hsub]
        exact hrecorder
      · rintro ⟨i, m⟩ hp e he hcat
        obtain ⟨hi, e', he', hcat', -, hiff⟩ := hold i e he hcat
        obtain ⟨s₁, hs₁, -⟩ := hk i e he hcat
        obtain ⟨s₂, hs₂, -⟩ := hk' i e' he' hcat'
        rw [hfirst i hi, hs₁, Option.some.injEq, Prod.mk.injEq] at hs₂
        exact hiff.1 hs₂.2.symm m hp
    | expireTemporary f k | expirePersistent f k => trivial
  · intro hkeep i e' he' hcat'
    rcases Nat.lt_or_ge i R.length with hi | hi
    · -- an event of the log, which the step has left alone
      have hcore := next_core hinj h hn hi
      rw [he', Option.map_some] at hcore
      obtain ⟨e, he, hrec⟩ := Option.map_eq_some_iff.1 hcore.symm
      have hcat : e.category = operationalCategory :=
        (congrArg Record.category hrec).trans hcat'
      obtain ⟨-, e'', he'', -, -, hiff⟩ := hold i e he hcat
      obtain rfl : e' = e'' := Option.some.inj (he'.symm.trans he'')
      obtain ⟨s₁, hs₁, hrecorder⟩ := hk i e he hcat
      have hsame : e'.record = e.record := by
        refine hiff.2 fun m hm => ?_
        cases act with
        | call env op => exact hkeep.2 (i, m) hm e he hcat
        | expireTemporary f k | expirePersistent f k => cases hm
      refine ⟨s₁, by rw [hfirst i hi, hs₁, hsame], ?_⟩
      have hsub : e'.submitter = e.submitter := congrArg Record.submitter hsame
      rw [hsub]
      exact hrecorder
    · -- an event the step has added
      obtain ⟨j, rfl⟩ := Nat.exists_eq_add_of_le hi
      have hnew := next_added hinj h hn j
      rw [he', Option.map_some] at hnew
      refine ⟨s, by rw [hlast j, ← hnew]; rfl, ?_⟩
      have hmem : e'.record ∈ act.adds H s := List.mem_of_getElem? hnew.symm
      cases act with
      | call env op =>
        obtain ⟨r, hs⟩ := hn
        exact opsRecorder_of_adds hs hkeep.1 _ hmem hcat'
      | expireTemporary f k | expirePersistent f k => cases hmem

/-! ## Runs -/

/-- Every event has been logged. -/
theorem hasLog_logged (hinj : Function.Injective H.sha256) (h : History H tr s) :
    ∃ R, HasLog H s R ∧ (logged H tr).length = R.length := by
  obtain ⟨s₀, h₀, hrun⟩ := h
  obtain ⟨g, n, hinit⟩ := initialized_of_init h₀
  induction hrun with
  | init => exact ⟨[], hinit.hasLog, rfl⟩
  | @snoc tr s s' act _ hn ih =>
    obtain ⟨R, hR, hlen⟩ := ih
    refine ⟨_, next_hasLog hinj hR hn, ?_⟩
    rw [logged_snoc, List.length_append, List.length_map, hlen]
    cases act with
    | call env op => rw [Action.logAfter, List.length_append, length_amendAll]; rfl
    | expireTemporary f k | expirePersistent f k => rfl

/-- The trail is kept by steps that keep it. -/
theorem trailKept_of_history (hinj : Function.Injective H.sha256) (h : History H tr s)
    (hsteps : ∀ p ∈ tr, p.2.keepsTrail H p.1) : TrailKept H tr s := by
  obtain ⟨s₀, h₀, hrun⟩ := h
  obtain ⟨g, n, hinit⟩ := initialized_of_init h₀
  induction hrun with
  | init =>
    intro i e he
    have hlog := (hinit.hasLog (H := H)).eventAt i
    rw [he] at hlog
    cases hlog
  | @snoc tr s s' act hrun hn ih =>
    obtain ⟨R, hR, hlen⟩ := hasLog_logged hinj ⟨s₀, h₀, hrun⟩
    have hk := ih fun p hp => hsteps p (List.mem_append_left _ hp)
    exact (trailKept_next hinj hR hlen hn hk).2 (hsteps (s, act) (by simp))

/-- **The operational trail is immutable and exclusive in every state of exactly the runs whose
    steps keep it.** -/
theorem history_trail (hinj : Function.Injective H.sha256) (h : History H tr s) :
    (∀ tr₁ s₁ tr₂, History H tr₁ s₁ → Run (Next H) s₁ tr₂ s → tr = tr₁ ++ tr₂ → TrailKept H tr₁ s₁) ↔
      ∀ p ∈ tr, p.2.keepsTrail H p.1 := by
  constructor
  · rintro hall ⟨s₁, act⟩ hp
    obtain ⟨tr₁, tr₂, rfl⟩ := List.append_of_mem hp
    obtain ⟨s₀, h₀, hrun⟩ := h
    obtain ⟨s₂, hbefore, hstep, hafter⟩ := hrun.split
    obtain ⟨R, hR, hlen⟩ := hasLog_logged hinj ⟨s₀, h₀, hbefore⟩
    have hk := hall tr₁ s₁ _ ⟨s₀, h₀, hbefore⟩ (Run.append (.snoc .init hstep) hafter) rfl
    have hk' := hall (tr₁ ++ [(s₁, act)]) s₂ tr₂ ⟨s₀, h₀, hbefore.snoc hstep⟩ hafter (by simp)
    exact (trailKept_next hinj hR hlen hstep hk).1 hk'
  · rintro hsteps tr₁ s₁ tr₂ h₁ - rfl
    exact trailKept_of_history hinj h₁ fun p hp => hsteps p (List.mem_append_left _ hp)

/-- The trail and an ordinary event, which is then rewritten and erased. -/
def deploymentScript : List (Env × Op Bytes) :=
  [(openEnv 11, .addOpsRecorder (account 65) (account 67)),
    (openEnv 12, .logOperationalAction (account 67) "ops_deploy" [1]),
    (openEnv 13, .logEvent (account 66) "a" [2] none none false),
    (openEnv 14, .updateEvent (account 65) 1 [3]),
    (openEnv 15, .setDefaultRetentionDays (account 65) 1),
    (openEnv 200000, .runRetentionSweep (account 65) 0 10)]

theorem history_trail_deploymentScript : ∃ tr s, History plainHost tr s ∧ TrailKept plainHost tr s ∧
    metadataAt s 0 = some [1] ∧ metadataAt s 1 = some [] := by
  let s₀ : State Bytes := deployed (openEnv 10) (account 65) 100 50
  obtain ⟨s, hs⟩ : ∃ s, play plainHost s₀ deploymentScript = some s :=
    Option.isSome_iff_exists.1 (by decide +kernel)
  have hsteps : (traceOf plainHost s₀ deploymentScript).all (fun p => p.2.keepsTrail plainHost p.1) =
      true := by decide +kernel
  have after : (play plainHost s₀ deploymentScript).map (fun s => (metadataAt s 0, metadataAt s 1)) =
      some (some [1], some []) := by decide +kernel
  rw [hs] at after
  simp only [Option.map_some, Option.some.injEq, Prod.mk.injEq] at after
  have hist := history_of_play (init_deployed rfl 100 50) hs
  refine ⟨_, s, hist, ?_, after⟩
  refine (history_trail Function.injective_id hist).2 (fun p hp => ?_) _ s [] hist .init (by simp)
  exact of_decide_eq_true (List.all_eq_true.1 hsteps p hp)

/-- An operational event is rewritten, and a stranger logs another. -/
def tamperedScript : List (Env × Op Bytes) :=
  [(openEnv 11, .logOperationalAction (account 65) "ops_deploy" [1]),
    (openEnv 12, .updateEvent (account 65) 0 [2]),
    (openEnv 13, .logEvent (account 66) "ops_deploy" [3] (some operationalCategory) none false)]

/-- The first event is not what was logged, and the second is by no recorder. -/
theorem trail_tampered : ∃ tr s, History plainHost tr s ∧
    (∃ e, eventAt s 0 = some e ∧ e.category = operationalCategory ∧ e.metadata = [2] ∧
      (logged plainHost tr)[0]?.map (·.2.metadata) = some [1]) ∧
    (∃ e, eventAt s 1 = some e ∧ e.category = operationalCategory ∧ e.submitter = account 66 ∧
      (logged plainHost tr)[1]?.map (fun p => opsRecorder p.1 (account 66)) = some false) ∧
    ¬TrailKept plainHost tr s := by
  let s₀ : State Bytes := deployed (openEnv 10) (account 65) 100 50
  let tr := traceOf plainHost s₀ tamperedScript
  obtain ⟨s, hs⟩ : ∃ s, play plainHost s₀ tamperedScript = some s :=
    Option.isSome_iff_exists.1 (by decide +kernel)
  have after : (play plainHost s₀ tamperedScript).map (fun s =>
      ((eventAt s 0).map fun e => (e.category, e.metadata),
        (eventAt s 1).map fun e => (e.category, e.submitter))) =
      some (some (operationalCategory, [2]), some (operationalCategory, account 66)) := by decide +kernel
  have first : (logged plainHost tr)[0]?.map (·.2.metadata) = some [1] := by decide
  have second : (logged plainHost tr)[1]?.map (fun p => opsRecorder p.1 (account 66)) = some false := by
    decide +kernel
  rw [hs] at after
  simp only [Option.map_some, Option.some.injEq, Prod.mk.injEq] at after
  obtain ⟨⟨e, he, hcat, hmeta⟩, ⟨e', he', hcat', hsub⟩⟩ : (∃ e, eventAt s 0 = some e ∧
      e.category = operationalCategory ∧ e.metadata = [2]) ∧ ∃ e, eventAt s 1 = some e ∧
      e.category = operationalCategory ∧ e.submitter = account 66 := by
    obtain ⟨h₀, h₁⟩ := after
    obtain ⟨e, he, hpair⟩ := Option.map_eq_some_iff.1 h₀
    obtain ⟨e', he', hpair'⟩ := Option.map_eq_some_iff.1 h₁
    obtain ⟨hc, hm⟩ := Prod.mk.inj hpair
    obtain ⟨hc', hm'⟩ := Prod.mk.inj hpair'
    exact ⟨⟨e, he, hc, hm⟩, ⟨e', he', hc', hm'⟩⟩
  refine ⟨tr, s, history_of_play (init_deployed rfl 100 50) hs, ⟨e, he, hcat, hmeta, first⟩,
    ⟨e', he', hcat', hsub, second⟩, fun hk => ?_⟩
  obtain ⟨s₁, hs₁, -⟩ := hk 0 e he hcat
  rw [hs₁, Option.map_some, Option.some.injEq] at first
  have hone : e.metadata = [1] := first
  rw [hmeta] at hone
  cases hone

end AuditLedger
