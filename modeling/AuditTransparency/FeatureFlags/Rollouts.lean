/-
  Rollouts of a flag: who it is enabled for, in the contract and in the package, and for whom it stays so
  while its canary advances.

  * `agree_iff`: when the two evaluations of a record are the same;
  * `stage_of_run`, `stage_of_advances`: the record after its canary has advanced in the contract, and
    the flag after it has in the package;
  * `evaluations_iff`: when the evaluations agree, and when a user keeps the flag.
-/
import AuditTransparency.FeatureFlags.Provider
import AuditTransparency.Soroban.Run
import Mathlib.Data.Nat.Cast.Order.Basic

namespace FeatureFlags

open Soroban
open AuditLedger (Roster)
open Provider (FeatureFlag ofRecord ofContext calculateBucket advanceStage)

variable {record : FeatureFlagRecord} {key : String} {context : EvaluationContext} {sequence : ℕ}

/-! ## Agreement -/

/-- Who a flag is enabled for, in a phase: those that are reached, or those of the default. -/
def Phase.Enabled (reached default : Prop) : Phase → Prop
  | killed => False
  | graduated => True
  | rolling => reached
  | inactive => default
  | settled => default

theorem userKey_ofContext (huser : context.userId ≠ "") : (ofContext context).userKey = context.userId :=
  if_neg huser

/-- Who a flag without an active experiment is enabled for, in the contract. -/
theorem enabled_iff (hexp : record.experiment.isActive = false) :
    (evaluate record key context sequence).enabled = true ↔ record.phase.Enabled
      (sequence % 100 < record.canary.currentPercentage) (record.defaultValue = true) := by
  rw [evaluate_eq]
  cases record.phase with
  | killed => exact iff_of_false Bool.false_ne_true id
  | inactive => rfl
  | graduated => exact iff_of_true rfl trivial
  | rolling => exact decide_eq_true_iff
  | settled =>
    have hrunning : ¬record.experiment.Running := fun h => by
      rw [ExperimentConfig.Running, hexp] at h
      exact absurd h.1 Bool.false_ne_true
    dsimp only
    rw [if_neg hrunning]
    rfl

/-- And in the package. -/
theorem value_iff {flag : FeatureFlag} {context : Provider.EvaluationContext} :
    (flag.evaluate key context).value = true ↔ flag.phase.Enabled
      ((calculateBucket key context.userKey : ℚ) < flag.canary.currentPercentage)
      (flag.defaultValue = true) := by
  rw [Provider.evaluate_eq]
  cases flag.phase with
  | killed => exact iff_of_false Bool.false_ne_true id
  | inactive => rfl
  | graduated => exact iff_of_true rfl trivial
  | rolling => exact decide_eq_true_iff
  | settled => rfl

/-- The evaluations agree, unless the canary runs and the ledger and the user are on its two sides. -/
theorem agree_iff (hexp : record.experiment.isActive = false) (huser : context.userId ≠ "") :
    (evaluate record key context sequence).enabled =
      ((ofRecord record).evaluate key (ofContext context)).value ↔
      (record.phase = .rolling → (sequence % 100 < record.canary.currentPercentage ↔
        calculateBucket key context.userId < record.canary.currentPercentage)) := by
  rw [Bool.eq_iff_iff, enabled_iff hexp, value_iff, Provider.phase_ofRecord, userKey_ofContext huser]
  cases record.phase with
  | rolling =>
    have hcast : ((calculateBucket key context.userId : ℚ) < (ofRecord record).canary.currentPercentage) ↔
        calculateBucket key context.userId < record.canary.currentPercentage := Nat.cast_lt
    rw [Phase.Enabled, Phase.Enabled, hcast]
    exact ⟨fun h _ => h, fun h => h rfl⟩
  | killed | inactive | graduated | settled => exact iff_of_true Iff.rfl nofun

/-! ## Percentages -/

/-- The percentage after `n` stages. -/
def CanaryConfig.percentageAfter (canary : CanaryConfig) : ℕ → ℕ
  | 0 => canary.currentPercentage
  | n + 1 =>
    min (min (canary.currentPercentage + (n + 1) * canary.stepPercentage) canary.targetPercentage) 100

/-- The next stage. -/
theorem percentageAfter_succ (canary : CanaryConfig) (n : ℕ) :
    min (min (canary.percentageAfter n + canary.stepPercentage) canary.targetPercentage) 100 =
      canary.percentageAfter (n + 1) := by
  cases n with
  | zero => rw [CanaryConfig.percentageAfter, CanaryConfig.percentageAfter, Nat.zero_add, Nat.one_mul]
  | succ n =>
    rw [CanaryConfig.percentageAfter, CanaryConfig.percentageAfter, Nat.succ_mul (n + 1)]
    omega

/-- At 100, it stays there. -/
theorem percentageAfter_mono (canary : CanaryConfig) {n : ℕ} (hn : n ≠ 0) :
    canary.percentageAfter n ≤ canary.percentageAfter (n + 1) := by
  obtain ⟨n, rfl⟩ := Nat.exists_eq_succ_of_ne_zero hn
  rw [CanaryConfig.percentageAfter, CanaryConfig.percentageAfter, Nat.succ_mul (n + 1)]
  omega

/-! ## Stages in the contract -/

/-- A call of `advance_canary_stage`. -/
structure Advance where
  env : Env
  roster : Roster
  caller : Address

/-- The call succeeds. -/
def Advances (key : String) (s : State) (a : Advance) (s' : State) : Prop :=
  ∃ record, (advanceCanaryStage a.roster a.caller key).run a.env s = .ok (record, s')

/-- What a record is after `n` stages. -/
structure Stage (record : FeatureFlagRecord) (n : ℕ) (record' : FeatureFlagRecord) : Prop where
  defaultValue : record'.defaultValue = record.defaultValue
  experiment : record'.experiment = record.experiment
  killSwitch : record'.killSwitch = record.killSwitch
  target : record'.canary.targetPercentage = record.canary.targetPercentage
  step : record'.canary.stepPercentage = record.canary.stepPercentage
  percentage : record'.canary.currentPercentage = record.canary.percentageAfter n
  status : record'.status =
    if n ≠ 0 ∧ 100 ≤ record.canary.percentageAfter n then .graduated else record.status
  isActive : record'.canary.isActive =
    if n ≠ 0 ∧ 100 ≤ record.canary.percentageAfter n then false else record.canary.isActive

theorem Stage.refl (record : FeatureFlagRecord) : Stage record 0 record :=
  ⟨rfl, rfl, rfl, rfl, rfl, rfl, rfl, rfl⟩

theorem Stage.advanced {record' : FeatureFlagRecord} {n : ℕ} (h : Stage record n record') (now : ℕ)
    (caller : Address) : Stage record (n + 1) (advanced now caller record') := by
  have hnext : record'.canary.next = record.canary.percentageAfter (n + 1) := by
    rw [CanaryConfig.next, h.percentage, h.step, h.target]
    exact percentageAfter_succ record.canary n
  have hkeep : n ≠ 0 ∧ 100 ≤ record.canary.percentageAfter n → 100 ≤ record.canary.percentageAfter (n + 1) :=
    fun ⟨hn, h100⟩ => h100.trans (percentageAfter_mono record.canary hn)
  have hsucc : (n + 1 ≠ 0 ∧ 100 ≤ record.canary.percentageAfter (n + 1)) ↔
      100 ≤ record.canary.percentageAfter (n + 1) := and_iff_right (Nat.succ_ne_zero n)
  refine ⟨h.defaultValue, h.experiment, h.killSwitch, h.target, h.step, hnext, ?_, ?_⟩
  · rw [FeatureFlags.advanced]
    dsimp only
    rw [hnext, h.status]
    simp only [hsucc]
    split_ifs with h₁ h₂
    · rfl
    · exact absurd (hkeep h₂) h₁
    · rfl
  · rw [FeatureFlags.advanced]
    dsimp only
    rw [hnext, h.isActive]
    simp only [hsucc]
    split_ifs with h₁ h₂
    · rfl
    · exact absurd (hkeep h₂) h₁
    · rfl

/-- The record after a run. -/
theorem stage_of_run {s s' : State} {tr : List (State × Advance)}
    (hrecord : s.persistent .flag key = some record) (h : Run (Advances key) s tr s') :
    ∃ record', s'.persistent .flag key = some record' ∧ Stage record tr.length record' := by
  induction h with
  | init => exact ⟨record, hrecord, .refl record⟩
  | @snoc tr s₁ s₂ a hr hs ih =>
    obtain ⟨record₁, hrecord₁, hstage⟩ := ih
    obtain ⟨result, hrun⟩ := hs
    obtain ⟨record₂, hrecord₂, hflags⟩ := post_advanceCanaryStage.of_run hrun
    obtain rfl := Option.some.inj (hrecord₁.symm.trans hrecord₂)
    refine ⟨_, by rw [hflags, Function.update_self], ?_⟩
    rw [List.length_append]
    exact hstage.advanced a.env.timestamp a.caller

/-- A bucket below 100 is reached by a percentage, or everybody is. -/
theorem reached_iff {b percentage : ℕ} {phase : Phase} {full : Prop} (hb : b < 100)
    (hfull : full → 100 ≤ percentage)
    (hphase : (full ∧ phase = .graduated) ∨ (¬full ∧ 0 < percentage ∧ phase = .rolling) ∨
      (¬full ∧ percentage = 0 ∧ phase = .settled)) :
    phase.Enabled (b < percentage) (false = true) ↔ b < percentage := by
  rcases hphase with ⟨h, rfl⟩ | ⟨-, -, rfl⟩ | ⟨-, rfl, rfl⟩
  · exact iff_of_true trivial (hb.trans_le (hfull h))
  · rfl
  · exact iff_of_false Bool.false_ne_true (Nat.not_lt_zero b)

/-- **Stickiness in the contract.**  Of a user that had the flag, the ledger sequence says after `n` stages
    whether it is still enabled, unless it is for everybody. -/
theorem Stage.enabled_iff {record' : FeatureFlagRecord} {n sequence₀ : ℕ} (h : Stage record n record')
    (hexp : record.experiment.isActive = false) (hdefault : record.defaultValue = false)
    (henabled : (evaluate record key context sequence₀).enabled = true) :
    (evaluate record' key context sequence).enabled = true ↔
      record.status = .graduated ∨ sequence % 100 < record.canary.percentageAfter n := by
  have hbound : sequence % 100 < 100 := Nat.mod_lt _ (by decide)
  rw [FeatureFlags.enabled_iff hexp] at henabled
  rw [FeatureFlags.enabled_iff (h.experiment ▸ hexp), h.defaultValue, hdefault, h.percentage]
  cases hphase : record.phase with
  | killed => simp [hphase, Phase.Enabled] at henabled
  | inactive => simp [hphase, hdefault, Phase.Enabled] at henabled
  | settled => simp [hphase, hdefault, Phase.Enabled] at henabled
  | graduated =>
    obtain ⟨hstatus, ht⟩ := phaseOf_eq_graduated.1 hphase
    have hphase' : record'.phase = .graduated := by
      refine phaseOf_eq_graduated.2 ⟨?_, by rw [h.killSwitch, ht]⟩
      rw [h.status, hstatus, ite_self]
    rw [hphase']
    exact iff_of_true trivial (.inl hstatus)
  | rolling =>
    obtain ⟨⟨hstatus, ht⟩, hactive, -⟩ := phaseOf_eq_rolling.1 hphase
    have hne : record.status ≠ .graduated := by
      rw [hstatus]
      exact nofun
    rw [or_iff_right hne]
    refine reached_iff hbound (fun hf : n ≠ 0 ∧ 100 ≤ record.canary.percentageAfter n => hf.2) ?_
    by_cases hfull : n ≠ 0 ∧ 100 ≤ record.canary.percentageAfter n
    · refine .inl ⟨hfull, phaseOf_eq_graduated.2 ⟨?_, by rw [h.killSwitch, ht]⟩⟩
      rw [h.status, if_pos hfull]
    · have hstatus' : record'.status = .active ∧ record'.killSwitch.isTriggered = false := by
        rw [h.status, if_neg hfull, h.killSwitch]
        exact ⟨hstatus, ht⟩
      have hrunning : record'.canary.Running ↔ 0 < record.canary.percentageAfter n := by
        rw [CanaryConfig.Running, h.isActive, if_neg hfull, h.percentage]
        exact and_iff_right hactive
      rcases Nat.eq_zero_or_pos (record.canary.percentageAfter n) with h0 | hpos
      · refine .inr (.inr ⟨hfull, h0, phaseOf_eq_settled.2 ⟨hstatus', ?_⟩⟩)
        rw [hrunning, h0]
        exact Nat.lt_irrefl 0
      · exact .inr (.inl ⟨hfull, hpos, phaseOf_eq_rolling.2 ⟨hstatus', hrunning.2 hpos⟩⟩)

/-! ## Stages in the package -/

/-- What the flag of a record is after `n` stages. -/
structure FlagStage (record : FeatureFlagRecord) (n : ℕ) (flag : FeatureFlag) : Prop where
  defaultValue : flag.defaultValue = record.defaultValue
  killSwitch : flag.killSwitch = (ofRecord record).killSwitch
  target : flag.canary.targetPercentage = record.canary.targetPercentage
  step : flag.canary.stepPercentage = record.canary.stepPercentage
  percentage : flag.canary.currentPercentage = record.canary.percentageAfter n
  status : flag.status = if n = 0 then record.status
    else if 100 ≤ record.canary.percentageAfter n then .graduated else .active
  isActive : flag.canary.isActive = if n = 0 then record.canary.isActive
    else decide (record.canary.percentageAfter n < 100)

theorem FlagStage.refl (record : FeatureFlagRecord) : FlagStage record 0 (ofRecord record) :=
  ⟨rfl, rfl, rfl, rfl, rfl, rfl, rfl⟩

theorem FlagStage.advanced {flag : FeatureFlag} {n : ℕ} (h : FlagStage record n flag) (now : ℚ) :
    FlagStage record (n + 1) (advanceStage now flag) := by
  have hnext : flag.canary.next = (record.canary.percentageAfter (n + 1) : ℕ) := by
    rw [Provider.CanaryConfig.next, h.percentage, h.step, h.target, ← percentageAfter_succ, min_comm,
      min_comm (record.canary.targetPercentage : ℚ)]
    push_cast
    rfl
  have hfull : (100 ≤ flag.canary.next) ↔ 100 ≤ record.canary.percentageAfter (n + 1) := by
    rw [hnext]
    exact_mod_cast Iff.rfl
  refine ⟨h.defaultValue, h.killSwitch, h.target, h.step, hnext, ?_, ?_⟩
  · rw [advanceStage, if_neg (Nat.succ_ne_zero n)]
    simp only [hfull]
  · rw [advanceStage, if_neg (Nat.succ_ne_zero n)]
    exact decide_eq_decide.2 (by rw [← not_le, ← not_le, hfull])

/-- The flag after stages at some times. -/
theorem stage_of_advances (record : FeatureFlagRecord) (times : List ℚ) :
    FlagStage record times.length (times.foldl (fun flag now => advanceStage now flag) (ofRecord record)) := by
  induction times using List.reverseRecOn with
  | nil => exact .refl record
  | append_singleton times now ih =>
    rw [List.foldl_append, List.length_append]
    exact ih.advanced now

/-- Where a flag is after its stages: with everybody, in the canary, or with nobody.  Before the first stage it
    is there when its canary is active. -/
theorem FlagStage.phase_cases {flag : FeatureFlag} {n : ℕ} (h : FlagStage record n flag)
    (ht : record.killSwitch.isTriggered = false)
    (hstart : n = 0 → record.status = .active ∧ record.canary.isActive = true) :
    let full := n ≠ 0 ∧ 100 ≤ record.canary.percentageAfter n
    (full ∧ flag.phase = .graduated) ∨
      (¬full ∧ 0 < record.canary.percentageAfter n ∧ flag.phase = .rolling) ∨
      (¬full ∧ record.canary.percentageAfter n = 0 ∧ flag.phase = .settled) := by
  intro full
  have ht' : flag.killSwitch.isTriggered = false := by
    rw [h.killSwitch]
    exact ht
  by_cases hfull : full
  · refine .inl ⟨hfull, phaseOf_eq_graduated.2 ⟨?_, ht'⟩⟩
    rw [h.status, if_neg hfull.1, if_pos hfull.2]
  · have hstatus : flag.status = .active ∧ flag.killSwitch.isTriggered = false := by
      refine ⟨?_, ht'⟩
      rw [h.status]
      split_ifs with h0 h100
      · exact (hstart h0).1
      · exact absurd ⟨h0, h100⟩ hfull
      · rfl
    have hactive : flag.canary.isActive = true := by
      rw [h.isActive]
      split_ifs with h0
      · exact (hstart h0).2
      · exact decide_eq_true (not_le.1 fun h100 => hfull ⟨h0, h100⟩)
    have hrunning : flag.canary.Running ↔ 0 < record.canary.percentageAfter n := by
      rw [Provider.CanaryConfig.Running, h.percentage, Nat.cast_pos]
      exact and_iff_right hactive
    rcases Nat.eq_zero_or_pos (record.canary.percentageAfter n) with h0 | hpos
    · refine .inr (.inr ⟨hfull, h0, phaseOf_eq_settled.2 ⟨hstatus, ?_⟩⟩)
      rw [hrunning, h0]
      exact Nat.lt_irrefl 0
    · exact .inr (.inl ⟨hfull, hpos, phaseOf_eq_rolling.2 ⟨hstatus, hrunning.2 hpos⟩⟩)

/-- **Stickiness in the package.**  Of a user that had the flag, the bucket says after `n` stages whether it is
    still enabled.  A stage takes a graduated flag back to its canary. -/
theorem FlagStage.value_iff {flag : FeatureFlag} {n : ℕ} (h : FlagStage record n flag)
    (huser : context.userId ≠ "") (hdefault : record.defaultValue = false)
    (henabled : ((ofRecord record).evaluate key (ofContext context)).value = true) :
    (flag.evaluate key (ofContext context)).value = true ↔ (n = 0 ∧ record.status = .graduated) ∨
      calculateBucket key context.userId < record.canary.percentageAfter n := by
  have hbound := Provider.calculateBucket_lt key context.userId
  rw [FeatureFlags.value_iff, Provider.phase_ofRecord] at henabled
  rw [FeatureFlags.value_iff, userKey_ofContext huser, h.percentage, h.defaultValue, hdefault, Nat.cast_lt]
  cases hphase : record.phase with
  | killed => simp [hphase, Phase.Enabled] at henabled
  | inactive => simp [hphase, ofRecord, hdefault, Phase.Enabled] at henabled
  | settled => simp [hphase, ofRecord, hdefault, Phase.Enabled] at henabled
  | graduated =>
    obtain ⟨hstatus, ht⟩ := phaseOf_eq_graduated.1 hphase
    by_cases h0 : n = 0
    · have hphase' : flag.phase = .graduated := by
        refine phaseOf_eq_graduated.2 ⟨?_, by rw [h.killSwitch]; exact ht⟩
        rw [h.status, if_pos h0, hstatus]
      rw [hphase']
      exact iff_of_true trivial (.inl ⟨h0, hstatus⟩)
    · rw [or_iff_right fun hn => h0 hn.1]
      exact reached_iff hbound And.right (h.phase_cases ht fun hn => absurd hn h0)
  | rolling =>
    obtain ⟨⟨hstatus, ht⟩, hactive, -⟩ := phaseOf_eq_rolling.1 hphase
    have hne : record.status ≠ .graduated := by
      rw [hstatus]
      exact nofun
    rw [or_iff_right fun hn => hne hn.2]
    exact reached_iff hbound And.right (h.phase_cases ht fun _ => ⟨hstatus, hactive⟩)

/-- **Agreement and stickiness**, for a record without an active experiment.  The evaluations of the contract
    and of the package agree exactly if the canary does not run, or the ledger sequence and the bucket of the
    user are on the same side of its percentage.  A user keeps the flag in the contract exactly if it had
    graduated or the sequence stays below the percentage, and in the package exactly if the bucket does, or the
    flag had graduated and there is no stage. -/
theorem evaluations_iff (hexp : record.experiment.isActive = false) (huser : context.userId ≠ "") :
    (∀ (env : Env) (s : State) (flags : String → Option FeatureFlag) (defaultValue : Bool),
      s.persistent .flag key = some record → flags key = some (ofRecord record) →
      ((∀ result s', (evaluateFlag key context).run env s = .ok (result, s') →
        result.enabled = (Provider.evaluateBoolean flags key defaultValue (ofContext context)).value) ↔
      (record.phase = .rolling → (env.sequence % 100 < record.canary.currentPercentage ↔
        calculateBucket key context.userId < record.canary.currentPercentage)))) ∧
    (record.defaultValue = false →
      (∀ (s s' : State) (tr : List (State × Advance)) (sequence₀ : ℕ) (env : Env),
        s.persistent .flag key = some record → (evaluate record key context sequence₀).enabled = true →
        Run (Advances key) s tr s' →
        ((∀ result s'', (evaluateFlag key context).run env s' = .ok (result, s'') → result.enabled = true) ↔
          record.status = .graduated ∨ env.sequence % 100 < record.canary.percentageAfter tr.length)) ∧
      ∀ times : List ℚ, ((ofRecord record).evaluate key (ofContext context)).value = true →
        (((times.foldl (fun flag now => advanceStage now flag) (ofRecord record)).evaluate key
          (ofContext context)).value = true ↔ (times = [] ∧ record.status = .graduated) ∨
            calculateBucket key context.userId < record.canary.percentageAfter times.length)) := by
  have hresult : ∀ {s : State} {env : Env} {r : FeatureFlagRecord} {P : Bool → Prop},
      s.persistent .flag key = some r →
      ((∀ result s', (evaluateFlag key context).run env s = .ok (result, s') → P result.enabled) ↔
        P (evaluate r key context env.sequence).enabled) := by
    intro s env r P hr
    rw [evaluateFlag_run, hr]
    constructor
    · exact fun h => h _ _ rfl
    · intro h result s' hrun
      cases hrun
      exact h
  refine ⟨fun env s flags defaultValue hs hflags => ?_, fun hdefault => ⟨?_, fun times henabled => ?_⟩⟩
  · rw [hresult hs (P := fun b =>
      b = (Provider.evaluateBoolean flags key defaultValue (ofContext context)).value),
      Provider.evaluateBoolean, hflags]
    exact agree_iff hexp huser
  · intro s s' tr sequence₀ env hs henabled hrun
    obtain ⟨record', hrecord', hstage⟩ := stage_of_run hs hrun
    rw [hresult hrecord' (P := fun b => b = true)]
    exact hstage.enabled_iff hexp hdefault henabled
  · rw [← List.length_eq_zero_iff]
    exact (stage_of_advances record times).value_iff huser hdefault henabled

/-! ## A user at half of a rollout -/

def admin : Address := ⟨List.replicate 56 71, List.length_replicate⟩

/-- A flag that is rolled out to one half. -/
def halfway : FeatureFlagRecord :=
  { missing "f" admin with status := .active, canary := ⟨true, 50, 100, 25, 0, 0, 1, false, 0⟩ }

def user : EvaluationContext := ⟨"u", admin, "testnet", ""⟩

def sequenceEnv (sequence : ℕ) : Env := ⟨0, sequence, fun _ => true, fun _ => 0⟩

/-- Everybody is an admin. -/
def openRoster : Roster := ⟨none, [], 1, fun _ => some .admin, true⟩

/-- The flag is created. -/
def stored : State :=
  (((Ledger.empty : State).putPers .flag "f" halfway).putPers .flagList () ["f"]).publish
    (.flagCreated "f" .boolean admin 0)

theorem bucket_user : calculateBucket "f" "u" = 37 := by decide

theorem stored_flag : stored.persistent .flag "f" = some halfway := rfl

theorem value_user : ((ofRecord halfway).evaluate "f" (ofContext user)).value = true := by
  have hphase : halfway.phase = .rolling := by decide
  rw [value_iff, Provider.phase_ofRecord, hphase]
  change (calculateBucket "f" "u" : ℚ) < (50 : ℕ)
  rw [bucket_user]
  norm_num

/-- After a stage, from 50 to 75 percent. -/
def advancedState : State :=
  (stored.putPers .flag "f" (advanced 0 admin halfway)).publish (.canaryAdvanced "f" 75 2 0)

/-- A flag is created; the user has it at half of the rollout, at sequence 7, and keeps it over a stage, at
    sequence 60. -/
theorem evaluations_iff_user :
    (createFeatureFlag openRoster admin "f" .boolean false halfway.canary halfway.experiment "").run
      (sequenceEnv 0) Ledger.empty = .ok (halfway, stored) ∧
    (∀ result s', (evaluateFlag "f" user).run (sequenceEnv 7) stored = .ok (result, s') →
      result.enabled =
        (Provider.evaluateBoolean (fun _ => some (ofRecord halfway)) "f" false (ofContext user)).value) ∧
    (∀ result s', (evaluateFlag "f" user).run (sequenceEnv 60) advancedState = .ok (result, s') →
      result.enabled = true) ∧
    ((advanceStage 0 (ofRecord halfway)).evaluate "f" (ofContext user)).value = true := by
  obtain ⟨hagree, hsticky⟩ := @evaluations_iff halfway "f" user rfl (by decide)
  obtain ⟨hcontract, hpackage⟩ := hsticky rfl
  have hstage : Advances "f" stored ⟨sequenceEnv 60, openRoster, admin⟩ advancedState :=
    ⟨advanced 0 admin halfway, rfl⟩
  have hbucket : calculateBucket "f" user.userId = 37 := bucket_user
  refine ⟨rfl, ?_, ?_, ?_⟩
  · refine (hagree (sequenceEnv 7) stored _ false stored_flag rfl).2 fun _ => ?_
    rw [hbucket]
    decide
  · exact (hcontract stored advancedState _ 7 (sequenceEnv 60) stored_flag (by decide)
      (.snoc .init hstage)).2 (.inr (by decide))
  · refine (hpackage [0] value_user).2 (.inr ?_)
    rw [hbucket]
    decide

/-- Enabled in bucket 0 and disabled in bucket 99, of the ledger; the package has the user in bucket 37. -/
theorem ledger_decides :
    (evaluateFlag "f" user).run (sequenceEnv 0) stored =
      .ok (⟨"f", true, "canary", "canary_rollout", false⟩, stored) ∧
    (evaluateFlag "f" user).run (sequenceEnv 99) stored =
      .ok (⟨"f", false, "baseline", "canary_rollout", false⟩, stored) ∧
    (Provider.evaluateBoolean (fun _ => some (ofRecord halfway)) "f" false (ofContext user)).value = true :=
  ⟨rfl, rfl, value_user⟩

end FeatureFlags
