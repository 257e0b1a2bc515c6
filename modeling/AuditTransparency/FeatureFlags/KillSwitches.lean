/-
  Kill switches: what a flag is after its switch has been triggered, and after it has been reset.

  A triggered switch decides every evaluation; stages of the canary do not touch it.  A reset makes the flag
  active, whatever it was before: what it evaluates to is then what the canary and the experiment say.

  * `killed_of_run`, `killed_of_advances`: every evaluation after a trigger;
  * `Survives`, `Provider.Survives`: the flags that a trigger and a reset leave as they were;
  * `kill_and_reset`: both, for the contract and the package.
-/
import AuditTransparency.FeatureFlags.Rollouts

namespace FeatureFlags

open Soroban
open AuditLedger (Roster)
open Provider (FeatureFlag advanceStage KillSwitchCoordinator)

variable {record : FeatureFlagRecord} {key : String} {context : EvaluationContext} {sequence : ℕ}
  {s s₁ s₂ : State} {env : Env} {ρ : Roster} {caller : Address}

/-! ## After a trigger -/

theorem evaluate_of_triggered (h : record.killSwitch.isTriggered = true) :
    evaluate record key context sequence = ⟨key, false, "killed", "kill_switch", true⟩ :=
  if_pos (.inr h)

/-- Stages do not reset a kill switch. -/
theorem killed_of_run {tr : List (State × Advance)} (hrecord : s.persistent .flag key = some record)
    (ht : record.killSwitch.isTriggered = true) (h : Run (Advances key) s tr s₁) :
    (evaluateFlag key context).run env s₁ = .ok (⟨key, false, "killed", "kill_switch", true⟩, s₁) := by
  obtain ⟨record', hrecord', hstage⟩ := stage_of_run hrecord h
  rw [evaluateFlag_run, hrecord', Option.getD_some, evaluate_of_triggered (hstage.killSwitch ▸ ht)]

/-! ## After a reset -/

/-- What a trigger and a reset leave of a record. -/
structure Restored (record record' : FeatureFlagRecord) : Prop where
  defaultValue : record'.defaultValue = record.defaultValue
  canary : record'.canary = record.canary
  experiment : record'.experiment = record.experiment
  status : record'.status = .active
  untriggered : record'.killSwitch.isTriggered = false

theorem restored (now now' : ℕ) (caller caller' : Address) (reason : String) (affectedEvents : List Symbol)
    (record : FeatureFlagRecord) :
    Restored record (wasReset now' caller' (triggered now caller reason affectedEvents record)) :=
  ⟨rfl, rfl, rfl, rfl, rfl⟩

/-- A trigger and a reset leave the evaluations of the flag as they are. -/
def Survives (record : FeatureFlagRecord) : Prop :=
  record.status = .active ∨ ¬record.canary.Running ∧
    if record.experiment.Running then
      (record.status = .graduated ∧ record.experiment.variants.head? = some "graduated") ∨
        (record.status = .inactive ∧ record.defaultValue = true ∧
          record.experiment.variants.head? = some "default")
    else record.status = .inactive

/-- What a context sees of an evaluation. -/
def EvaluationResult.seen (result : EvaluationResult) : Bool × String := (result.enabled, result.variant)

/-- An active flag, after the kill switch and the status have been checked. -/
theorem seen_of_active (hstatus : record.status = .active) (ht : record.killSwitch.isTriggered = false) :
    (evaluate record key context sequence).seen =
      if record.canary.Running then
        if sequence % 100 < record.canary.currentPercentage then (true, "canary") else (false, "baseline")
      else if record.experiment.Running then (true, resolveExperimentVariant record.experiment context.userId)
      else (record.defaultValue, "default") := by
  rw [evaluate_eq]
  by_cases hcanary : record.canary.Running
  · rw [if_pos hcanary, show record.phase = .rolling from phaseOf_eq_rolling.2 ⟨⟨hstatus, ht⟩, hcanary⟩]
    by_cases hin : sequence % 100 < record.canary.currentPercentage
    · simp [EvaluationResult.seen, hin]
    · simp [EvaluationResult.seen, hin]
  · rw [if_neg hcanary, show record.phase = .settled from phaseOf_eq_settled.2 ⟨⟨hstatus, ht⟩, hcanary⟩]
    dsimp only
    split_ifs <;> rfl

theorem resolveExperimentVariant_eq_iff (h : record.experiment.Running) {userId v : String} :
    resolveExperimentVariant record.experiment userId = v ↔ record.experiment.variants.head? = some v := by
  obtain ⟨w, l, hl⟩ := List.exists_cons_of_length_pos h.2
  rw [resolveExperimentVariant, hl, List.head?_cons, Option.getD_some, Option.some.injEq]

/-- When an active flag shows every context the value `b` and a variant that is not of the canary. -/
theorem active_seen_iff {b : Bool} {v : String} (hv : v ≠ "canary") (hv' : v ≠ "baseline") (caller : Address) :
    (∀ (context : EvaluationContext) (sequence : ℕ), (if record.canary.Running then
        if sequence % 100 < record.canary.currentPercentage then (true, "canary") else (false, "baseline")
      else if record.experiment.Running then (true, resolveExperimentVariant record.experiment context.userId)
      else (record.defaultValue, "default")) = (b, v)) ↔
    ¬record.canary.Running ∧ if record.experiment.Running then
      true = b ∧ record.experiment.variants.head? = some v else record.defaultValue = b ∧ "default" = v := by
  by_cases hcanary : record.canary.Running
  · refine iff_of_false (fun h => ?_) fun h => h.1 hcanary
    have hfirst := congrArg Prod.snd (h ⟨"", caller, "", ""⟩ 0)
    rw [if_pos hcanary] at hfirst
    split_ifs at hfirst
    · exact hv hfirst.symm
    · exact hv' hfirst.symm
  · rw [and_iff_right hcanary]
    simp only [if_neg hcanary]
    by_cases hexp : record.experiment.Running
    · simp only [if_pos hexp, Prod.mk.injEq, resolveExperimentVariant_eq_iff hexp]
      exact ⟨fun h => h ⟨"", caller, "", ""⟩ 0, fun h _ _ => h⟩
    · simp only [if_neg hexp, Prod.mk.injEq]
      exact ⟨fun h => h ⟨"", caller, "", ""⟩ 0, fun h _ _ => h⟩

/-- **A reset flag** evaluates as before for every context and at every ledger exactly if it survives. -/
theorem Restored.seen_iff {record' : FeatureFlagRecord} (h : Restored record record') (key : String)
    (ht : record.killSwitch.isTriggered = false) (hstatus : record.status ≠ .killed) (caller : Address) :
    (∀ context sequence, (evaluate record' key context sequence).seen =
      (evaluate record key context sequence).seen) ↔ Survives record := by
  have hafter : ∀ context sequence, (evaluate record' key context sequence).seen =
      if record.canary.Running then
        if sequence % 100 < record.canary.currentPercentage then (true, "canary") else (false, "baseline")
      else if record.experiment.Running then (true, resolveExperimentVariant record.experiment context.userId)
      else (record.defaultValue, "default") := by
    intro context sequence
    rw [seen_of_active h.status h.untriggered, h.canary, h.experiment, h.defaultValue]
  simp only [hafter]
  cases hs : record.status with
  | killed => exact absurd hs hstatus
  | active =>
    refine iff_of_true (fun context sequence => ?_) (.inl hs)
    rw [seen_of_active hs ht]
  | inactive =>
    have hbefore : ∀ context sequence,
        (evaluate record key context sequence).seen = (record.defaultValue, "default") := by
      intro context sequence
      rw [evaluate_eq, show record.phase = .inactive from phaseOf_eq_inactive.2 ⟨hs, ht⟩]
      rfl
    simp only [hbefore, active_seen_iff (v := "default") (by decide) (by decide) caller]
    simp [Survives, hs]
  | graduated =>
    have hbefore : ∀ context sequence, (evaluate record key context sequence).seen = (true, "graduated") := by
      intro context sequence
      rw [evaluate_eq, show record.phase = .graduated from phaseOf_eq_graduated.2 ⟨hs, ht⟩]
      rfl
    simp only [hbefore, active_seen_iff (v := "graduated") (by decide) (by decide) caller]
    simp [Survives, hs]

/-! ## In the package -/

namespace Provider
variable {flag : FeatureFlag} {context : EvaluationContext}

theorem evaluate_of_triggered (h : flag.killSwitch.isTriggered = true) :
    flag.evaluate key context = ⟨key, false, none, .killSwitch, true⟩ :=
  if_pos (.inr h)

theorem killed_of_advances (h : flag.killSwitch.isTriggered = true) (times : List ℚ) :
    (times.foldl (fun flag now => advanceStage now flag) flag).evaluate key context =
      ⟨key, false, none, .killSwitch, true⟩ := by
  induction times generalizing flag with
  | nil => exact evaluate_of_triggered h
  | cons now times ih => exact ih h

/-- What a context sees of an evaluation. -/
def EvaluationDetail.seen {T : Type} (detail : EvaluationDetail T) : T × Option String := (detail.value, detail.variant)

/-- A trigger and a reset leave the evaluations of the flag as they are. -/
def Survives (flag : FeatureFlag) : Prop :=
  flag.status = .active ∨ ¬flag.canary.Running ∧
    (flag.status = .inactive ∨ flag.status = .graduated ∧ flag.defaultValue = true)

theorem seen_of_active (hstatus : flag.status = .active) (ht : flag.killSwitch.isTriggered = false) :
    (flag.evaluate key context).seen =
      if flag.canary.Running then
        if (calculateBucket key context.userKey : ℚ) < flag.canary.currentPercentage then (true, some "canary")
        else (false, some "baseline")
      else (flag.defaultValue, none) := by
  rw [evaluate_eq]
  by_cases hcanary : flag.canary.Running
  · rw [if_pos hcanary, show flag.phase = .rolling from phaseOf_eq_rolling.2 ⟨⟨hstatus, ht⟩, hcanary⟩]
    by_cases hin : (calculateBucket key context.userKey : ℚ) < flag.canary.currentPercentage
    · simp [EvaluationDetail.seen, hin]
    · simp [EvaluationDetail.seen, hin]
  · rw [if_neg hcanary, show flag.phase = .settled from phaseOf_eq_settled.2 ⟨⟨hstatus, ht⟩, hcanary⟩]
    rfl

theorem active_seen_iff {b : Bool} :
    (∀ context : EvaluationContext, (if flag.canary.Running then
        if (calculateBucket key context.userKey : ℚ) < flag.canary.currentPercentage then (true, some "canary")
        else (false, some "baseline")
      else (flag.defaultValue, none)) = (b, none)) ↔ ¬flag.canary.Running ∧ flag.defaultValue = b := by
  by_cases hcanary : flag.canary.Running
  · refine iff_of_false (fun h => ?_) fun h => h.1 hcanary
    have hfirst := congrArg Prod.snd (h ⟨"", ""⟩)
    rw [if_pos hcanary] at hfirst
    split_ifs at hfirst
  · rw [and_iff_right hcanary]
    simp only [if_neg hcanary, Prod.mk.injEq, and_true]
    exact ⟨fun h => h ⟨"", ""⟩, fun h _ => h⟩

/-- **A reset flag** of the package. -/
theorem seen_reset_iff {flag' : FeatureFlag} (hdefault : flag'.defaultValue = flag.defaultValue)
    (hcanary : flag'.canary = flag.canary) (hactive : flag'.status = .active)
    (huntriggered : flag'.killSwitch.isTriggered = false) (ht : flag.killSwitch.isTriggered = false)
    (hstatus : flag.status ≠ .killed) :
    (∀ context, (flag'.evaluate key context).seen = (flag.evaluate key context).seen) ↔ Survives flag := by
  have hafter : ∀ context : EvaluationContext, (flag'.evaluate key context).seen =
      if flag.canary.Running then
        if (calculateBucket key context.userKey : ℚ) < flag.canary.currentPercentage then (true, some "canary")
        else (false, some "baseline")
      else (flag.defaultValue, none) := by
    intro context
    rw [seen_of_active hactive huntriggered, hcanary, hdefault]
  simp only [hafter]
  cases hs : flag.status with
  | killed => exact absurd hs hstatus
  | active =>
    refine iff_of_true (fun context => ?_) (.inl hs)
    rw [seen_of_active hs ht]
  | inactive =>
    have hbefore : ∀ context, (flag.evaluate key context).seen = (flag.defaultValue, none) := by
      intro context
      rw [evaluate_eq, show flag.phase = .inactive from phaseOf_eq_inactive.2 ⟨hs, ht⟩]
      rfl
    simp only [hbefore, active_seen_iff]
    simp [Survives, hs]
  | graduated =>
    have hbefore : ∀ context, (flag.evaluate key context).seen = (true, none) := by
      intro context
      rw [evaluate_eq, show flag.phase = .graduated from phaseOf_eq_graduated.2 ⟨hs, ht⟩]
      rfl
    simp only [hbefore, active_seen_iff]
    simp [Survives, hs]

end Provider

/-! ## Both -/

/-- **Kill switches.**  After a trigger every evaluation is disabled by the kill switch, whatever the stages of
    the canary after it, and the coordinator of the package has the flag among those that are killed until the
    reset.  After a trigger and a reset every context sees what it saw before, at the same ledger, exactly if the
    flag survives; for an active flag this is so. -/
theorem kill_and_reset (hrecord : s.persistent .flag key = some record)
    (ht : record.killSwitch.isTriggered = false) (hstatus : record.status ≠ .killed) :
    (∀ ρ env caller reason events result s₁,
      (triggerKillSwitch ρ caller key reason events).run env s = .ok (result, s₁) →
      (∀ tr s₂, Run (Advances key) s₁ tr s₂ → ∀ context env', (evaluateFlag key context).run env' s₂ =
        .ok (⟨key, false, "killed", "kill_switch", true⟩, s₂)) ∧
      ∀ ρ' env' caller' result' s₂, (resetKillSwitch ρ' caller' key).run env' s₁ = .ok (result', s₂) →
        ((∀ context env'' before after, (evaluateFlag key context).run env'' s = .ok (before, s) →
          (evaluateFlag key context).run env'' s₂ = .ok (after, s₂) → after.seen = before.seen) ↔
          Survives record)) ∧
    ∀ (flag : FeatureFlag) (active : KillSwitchCoordinator) (now : ℚ) (reason triggeredBy : String),
      flag.killSwitch.isTriggered = false → flag.status ≠ .killed →
      let killed := (active.trigger now reason triggeredBy flag).2
      ((active.trigger now reason triggeredBy flag).1.isKilled flag.key = true ∧
        ∀ active' : KillSwitchCoordinator, (active'.reset killed).1.isKilled flag.key = false) ∧
      (∀ (times : List ℚ) (context : Provider.EvaluationContext),
        (times.foldl (fun flag now => advanceStage now flag) killed).evaluate key context =
          ⟨key, false, none, .killSwitch, true⟩) ∧
      ∀ active' : KillSwitchCoordinator,
        (∀ context, ((active'.reset killed).2.evaluate key context).seen = (flag.evaluate key context).seen) ↔
          Provider.Survives flag := by
  refine ⟨fun ρ env caller reason events result s₁ htrigger => ?_,
    fun flag active now reason triggeredBy hflag hflagStatus => ?_⟩
  · obtain ⟨record₁, hrecord₁, hflags₁⟩ := post_triggerKillSwitch.of_run htrigger
    obtain rfl := Option.some.inj (hrecord.symm.trans hrecord₁)
    have hkilled : s₁.persistent .flag key = some (triggered env.timestamp caller reason events record) := by
      rw [hflags₁, Function.update_self]
    refine ⟨fun tr s₂ hrun context env' => killed_of_run hkilled rfl hrun, ?_⟩
    intro ρ' env' caller' result' s₂ hreset
    obtain ⟨record₂, hrecord₂, hflags₂⟩ := post_resetKillSwitch.of_run hreset
    obtain rfl := Option.some.inj (hkilled.symm.trans hrecord₂)
    have hback : s₂.persistent .flag key = some (wasReset env'.timestamp caller'
        (triggered env.timestamp caller reason events record)) := by
      rw [hflags₂, Function.update_self]
    rw [← (restored env.timestamp env'.timestamp caller caller' reason events record).seen_iff key ht
      hstatus caller]
    constructor
    · intro h context sequence
      have hseen := h context ⟨0, sequence, env.auth, env.payload⟩ _ _ (evaluateFlag_run key context)
        (evaluateFlag_run key context)
      rwa [hrecord, hback] at hseen
    · intro h context env'' before after hbefore hafter
      rw [evaluateFlag_run, hrecord] at hbefore
      rw [evaluateFlag_run, hback] at hafter
      cases hbefore
      cases hafter
      exact h context env''.sequence
  · have hkilled : (active.trigger now reason triggeredBy flag).1.isKilled flag.key = true := by
      simp [KillSwitchCoordinator.isKilled, KillSwitchCoordinator.trigger]
    have hreset (active' : KillSwitchCoordinator) :
        (active'.reset (active.trigger now reason triggeredBy flag).2).1.isKilled flag.key = false := by
      simp [KillSwitchCoordinator.isKilled, KillSwitchCoordinator.reset, KillSwitchCoordinator.trigger]
    exact ⟨⟨hkilled, hreset⟩, fun times context => Provider.killed_of_advances rfl times,
      fun active' => Provider.seen_reset_iff rfl rfl rfl rfl hflag hflagStatus⟩

/-! ## Two flags -/

/-- The flag `halfway`, killed. -/
def killedState : State :=
  (stored.putPers .flag "f" (triggered 0 admin "fix" [] halfway)).publish (.killSwitchTriggered "f" admin "fix" 0)

/-- And reset. -/
def resetState : State :=
  (killedState.putPers .flag "f" (wasReset 0 admin (triggered 0 admin "fix" [] halfway))).publish
    (.killSwitchReset "f" admin 0)

theorem kill_and_reset_halfway :
    (evaluateFlag "f" user).run (sequenceEnv 7) killedState =
      .ok (⟨"f", false, "killed", "kill_switch", true⟩, killedState) ∧
    ∀ context env before after, (evaluateFlag "f" context).run env stored = .ok (before, stored) →
      (evaluateFlag "f" context).run env resetState = .ok (after, resetState) → after.seen = before.seen := by
  have htrigger : (triggerKillSwitch openRoster admin "f" "fix" []).run (sequenceEnv 0) stored =
      .ok (triggered 0 admin "fix" [] halfway, killedState) := rfl
  have hreset : (resetKillSwitch openRoster admin "f").run (sequenceEnv 0) killedState =
      .ok (wasReset 0 admin (triggered 0 admin "fix" [] halfway), resetState) := rfl
  obtain ⟨hkilled, hback⟩ := (kill_and_reset stored_flag rfl (by decide)).1 _ _ _ _ _ _ _ htrigger
  exact ⟨hkilled [] killedState .init user (sequenceEnv 7), (hback _ _ _ _ _ hreset).2 (.inl rfl)⟩

/-- A flag that is rolled out to all. -/
def finished : FeatureFlagRecord :=
  { missing "f" admin with status := .graduated, canary := ⟨false, 100, 100, 25, 0, 0, 4, false, 0⟩ }

/-- A trigger and a reset take it from everybody. -/
theorem finished_lost :
    let s : State := Ledger.empty.putPers .flag "f" finished
    ∃ r₁ s₁ r₂ s₂, (triggerKillSwitch openRoster admin "f" "fix" []).run (sequenceEnv 0) s = .ok (r₁, s₁) ∧
      (resetKillSwitch openRoster admin "f").run (sequenceEnv 0) s₁ = .ok (r₂, s₂) ∧
      (evaluateFlag "f" user).run (sequenceEnv 0) s = .ok (⟨"f", true, "graduated", "graduated", false⟩, s) ∧
      (evaluateFlag "f" user).run (sequenceEnv 0) s₂ = .ok (⟨"f", false, "default", "default", false⟩, s₂) :=
  ⟨_, _, _, _, rfl, rfl, rfl, rfl⟩

end FeatureFlags
