/-
  Runs of the rule engine.

  * `listed_step`, `matchRules_snd`: what a step keeps;
  * `rules_kept`: in the runs that give no id of a managed rule, and match no pattern with a flag g or y, the
    managed rules are still listed, and an evaluation depends on the enabled rules only.
-/
import AuditTransparency.Waf.RuleEngine

namespace Waf

section
variable {regExps : Pattern → RegExp} {s : State} {rule : WafRule} {op : Op}

/-! ## Managed rules -/

/-- A rule is there as it was, but for being disabled. -/
def Listed (rules : WafRuleEngine) (rule : WafRule) : Prop :=
  ∃ r ∈ rules.values, r.id = rule.id ∧ r.target = rule.target ∧ r.pattern = rule.pattern ∧
    r.action = rule.action ∧ r.managed = true

/-- No rule of the list has the id of a managed rule before it. -/
def Separate (initialRules : List WafRule) : Prop :=
  initialRules.Pairwise fun a b => a.managed = true → a.id ≠ b.id

instance (initialRules : List WafRule) : Decidable (Separate initialRules) :=
  inferInstanceAs (Decidable (initialRules.Pairwise _))

theorem listed_construct {initialRules : List WafRule} (h : Separate initialRules) (hrule : rule ∈ initialRules)
    (hmanaged : rule.managed = true) : Listed (construct initialRules) rule := by
  obtain ⟨l₁, l₂, rfl⟩ := List.append_of_mem hrule
  have hlater : ∀ r ∈ l₂, rule.id ≠ r.id := fun r hr =>
    (List.pairwise_cons.1 (List.pairwise_append.1 h).2.1).1 r hr hmanaged
  exact ⟨rule, Keyed.mem_ofList hlater, rfl, rfl, rfl, rfl, hmanaged⟩

/-- The id of a rule that is added is not that of a managed one. -/
def Op.Fresh (rules : WafRuleEngine) : Op → Prop
  | .addRule new => ∀ r ∈ rules.values, r.managed = true → r.id ≠ new.id
  | _ => True

theorem listed_addRule {new : RuleFields} (hnew : (Op.addRule new).Fresh s.rules) (h : Listed s.rules rule) :
    Listed (addRule s.rules new) rule := by
  obtain ⟨r, hr, hid, htarget, hpattern, haction, hmanaged⟩ := h
  exact ⟨r, Keyed.mem_set.2 (Or.inr ⟨hr, hnew r hr hmanaged⟩), hid, htarget, hpattern, haction, hmanaged⟩

/-- A managed rule is not removed. -/
theorem listed_removeRule {id : String} {b : Bool} {rules : WafRuleEngine}
    (hok : removeRule s.rules id = .ok (b, rules)) (h : Listed s.rules rule) : Listed rules rule := by
  obtain ⟨r, hr, hid, htarget, hpattern, haction, hmanaged⟩ := h
  rw [removeRule] at hok
  split at hok
  · cases hok
  next hnot =>
    cases hok
    have hne : r.id ≠ id := by
      intro heq
      rw [Keyed.get_eq_some_iff.2 ⟨hr, heq⟩] at hnot
      exact hnot hmanaged
    exact ⟨r, Keyed.mem_delete.2 ⟨hr, hne⟩, hid, htarget, hpattern, haction, hmanaged⟩

theorem listed_setEnabled {id : String} {enabled : Bool} (h : Listed s.rules rule) :
    Listed (setEnabled s.rules id enabled).2 rule := by
  obtain ⟨r, hr, hid, htarget, hpattern, haction, hmanaged⟩ := h
  refine ⟨r.setEnabled id enabled, List.mem_map_of_mem hr, ?_⟩
  rw [WafRule.setEnabled]
  split
  · exact ⟨hid, htarget, hpattern, haction, hmanaged⟩
  · exact ⟨hid, htarget, hpattern, haction, hmanaged⟩

theorem listed_step (hop : op.Fresh s.rules) (h : Listed s.rules rule) :
    Listed (step regExps s op).rules rule := by
  cases op with
  | addRule new => exact listed_addRule hop h
  | removeRule id =>
    rw [step]
    split
    · exact h
    · next hok => exact listed_removeRule hok h
  | setEnabled id enabled => exact listed_setEnabled h
  | evaluate req => exact h

/-! ## `lastIndex` -/

/-- No sample is matched from 0 by a pattern with a flag g or y, and `lastIndex` is 0 there. -/
def Missed (regExps : Pattern → RegExp) (lastIndex : Pattern → ℕ) (req : Request) (rule : WafRule) : Prop :=
  (regExps rule.pattern).stateful = true → lastIndex rule.pattern = 0 ∧
    ∀ sample ∈ extractTargets req rule.target, ((regExps rule.pattern).test 0 sample).1 = false

theorem firstHit_snd_of_not_stateful {r : RegExp} (hr : r.stateful = false) (lastIndex : ℕ)
    (samples : List RegExp.Text) : (firstHit r lastIndex samples).2 = lastIndex := by
  induction samples with
  | nil => rfl
  | cons sample samples ih =>
    rw [firstHit, r.test_snd_of_not_stateful hr]
    split
    · rfl
    · exact ih

theorem firstHit_snd_of_miss {r : RegExp} {samples : List RegExp.Text}
    (h : ∀ sample ∈ samples, (r.test 0 sample).1 = false) : (firstHit r 0 samples).2 = 0 := by
  induction samples with
  | nil => rfl
  | cons sample samples ih =>
    have hmiss := h sample List.mem_cons_self
    rw [firstHit, hmiss, RegExp.test_snd_of_miss hmiss]
    exact ih fun other hother => h other (List.mem_cons_of_mem sample hother)

theorem firstHit_snd {req : Request} {lastIndex : Pattern → ℕ} (h : Missed regExps lastIndex req rule) :
    (firstHit (regExps rule.pattern) (lastIndex rule.pattern) (extractTargets req rule.target)).2 =
      lastIndex rule.pattern := by
  cases hr : (regExps rule.pattern).stateful with
  | false => exact firstHit_snd_of_not_stateful hr _ _
  | true =>
    obtain ⟨hzero, hmiss⟩ := h hr
    rw [hzero]
    exact firstHit_snd_of_miss hmiss

/-- An evaluation that matches no pattern with a flag g or y leaves no trace. -/
theorem matchRules_snd {req : Request} {rules : List WafRule} {lastIndex : Pattern → ℕ}
    (h : ∀ rule ∈ rules, rule.enabled = true → Missed regExps lastIndex req rule) :
    (matchRules regExps req rules lastIndex).2 = lastIndex := by
  induction rules with
  | nil => rfl
  | cons rule rules ih =>
    have hrest := ih fun other hother => h other (List.mem_cons_of_mem rule hother)
    rw [matchRules]
    split
    · exact hrest
    next henabled =>
      have hkept := firstHit_snd (h rule List.mem_cons_self (eq_true_of_ne_false henabled))
      simp only [hkept, Function.update_eq_self]
      exact hrest

/-- Disabled rules are passed over. -/
theorem matchRules_filter (req : Request) (rules : List WafRule) (lastIndex : Pattern → ℕ) :
    matchRules regExps req (rules.filter (·.enabled)) lastIndex = matchRules regExps req rules lastIndex := by
  induction rules generalizing lastIndex with
  | nil => rfl
  | cons rule rules ih =>
    cases henabled : rule.enabled with
    | false =>
      have hfilter : (rule :: rules).filter (·.enabled) = rules.filter (·.enabled) :=
        List.filter_cons_of_neg (by simp [henabled])
      rw [hfilter, ih, matchRules, if_pos henabled]
    | true =>
      have hfilter : (rule :: rules).filter (·.enabled) = rule :: rules.filter (·.enabled) :=
        List.filter_cons_of_pos (p := fun r : WafRule => r.enabled) henabled
      rw [hfilter, matchRules, matchRules]
      simp only [ih]

theorem verdict_filter (rules : List WafRule) (lastIndex : Pattern → ℕ) (req : Request) :
    verdict regExps (rules.filter (·.enabled)) lastIndex req = verdict regExps rules lastIndex req := by
  rw [verdict, verdict, matchRules_filter]

/-! ## Runs -/

/-- What an operation may do: it adds no rule under the id of a managed one, and matches no pattern with a flag
g or y. -/
def Op.Careful (regExps : Pattern → RegExp) (s : State) (op : Op) : Prop :=
  op.Fresh s.rules ∧
    match op with
    | .evaluate req => ∀ rule ∈ s.rules.values, rule.enabled = true → Missed regExps s.lastIndex req rule
    | _ => True

/-- A run of careful operations. -/
def CarefulRun (regExps : Pattern → RegExp) : State → List Op → Prop
  | _, [] => True
  | s, op :: ops => op.Careful regExps s ∧ CarefulRun regExps (step regExps s op) ops

theorem lastIndex_step (h : op.Careful regExps s) : (step regExps s op).lastIndex = s.lastIndex := by
  cases op with
  | addRule new => rfl
  | removeRule id =>
    rw [step]
    split <;> rfl
  | setEnabled id enabled => rfl
  | evaluate req => exact matchRules_snd h.2

theorem listed_run {ops : List Op} (hops : CarefulRun regExps s ops) (h : Listed s.rules rule) :
    Listed (run regExps s ops).rules rule := by
  induction ops generalizing s with
  | nil => exact h
  | cons op ops ih => exact ih hops.2 (listed_step hops.1.1 h)

theorem lastIndex_run {ops : List Op} (hops : CarefulRun regExps s ops) :
    (run regExps s ops).lastIndex = s.lastIndex := by
  induction ops generalizing s with
  | nil => rfl
  | cons op ops ih => exact (ih hops.2).trans (lastIndex_step hops.1)

end

/-- **Rules are kept.**  In a careful run, the managed rules of the first set are still listed, and what an
evaluation returns depends on the enabled rules and the request. -/
theorem rules_kept (regExps : Pattern → RegExp) (lastIndex : Pattern → ℕ) {initialRules : List WafRule}
    (hinit : Separate initialRules) {ops : List Op}
    (hops : CarefulRun regExps ⟨construct initialRules, lastIndex⟩ ops) :
    let s := run regExps ⟨construct initialRules, lastIndex⟩ ops
    (∀ rule ∈ initialRules, rule.managed = true → Listed s.rules rule) ∧
    ∀ req, (evaluate regExps s req).1 =
      verdict regExps (s.rules.values.filter (·.enabled)) lastIndex req := by
  intro s
  constructor
  · intro rule hrule hmanaged
    exact listed_run hops (listed_construct hinit hrule hmanaged)
  · intro req
    rw [verdict_filter, evaluate, lastIndex_run hops]

/-- The patterns of the default rules, and one with the flag g behind them. -/
def patternAt (p : Pattern) : RegExp :=
  match defaultPatterns[p]? with
  | some a => a.toRegExp
  | none => { (RegExp.Expression.literal "evil").toRegExp with global := true }

def customRule (id : String) (pattern : Pattern) : RuleFields where
  id := id
  name := "Custom"
  target := .path
  pattern := pattern
  action := .block
  severity := .low
  enabled := true

/-- The path is `/evil`. -/
def evilRequest : Request := ⟨[47, 101, 118, 105, 108], .nullish, .nullish, .nullish⟩

def carefulOps : List Op :=
  [.addRule (customRule "custom-1" 2), .setEnabled "sqli-1" false, .removeRule "sqli-1", .evaluate evilRequest]

theorem careful_ops : CarefulRun patternAt ⟨construct defaultRules, fun _ => 0⟩ carefulOps := by
  have hpatterns : ∀ rule ∈ (run patternAt ⟨construct defaultRules, fun _ => 0⟩ (carefulOps.take 3)).rules.values,
      (patternAt rule.pattern).stateful = false := by decide
  refine ⟨⟨show ∀ r ∈ (construct defaultRules).values, _ by decide, trivial⟩, ⟨trivial, trivial⟩,
    ⟨trivial, trivial⟩, ⟨trivial, fun rule hrule _ hstateful => ?_⟩, trivial⟩
  rw [hpatterns rule hrule] at hstateful
  exact absurd hstateful nofun

theorem rules_kept_defaults :
    let s := run patternAt ⟨construct defaultRules, fun _ => 0⟩ carefulOps
    (∀ rule ∈ defaultRules, rule.managed = true → Listed s.rules rule) ∧
    ∀ req, (evaluate patternAt s req).1 =
      verdict patternAt (s.rules.values.filter (·.enabled)) (fun _ => 0) req :=
  rules_kept patternAt (fun _ => 0) (by decide) careful_ops

/-- A rule that is added under the id of a managed one replaces it, and a pattern with the flag g blocks every
other request. -/
theorem rules_lost :
    (¬∀ rule ∈ defaultRules,
      Listed (addRule (construct defaultRules) (customRule "traversal-1" 5)) rule) ∧
    let rules := addRule (construct []) (customRule "custom-1" 5)
    let s := (evaluate patternAt ⟨rules, fun _ => 0⟩ evilRequest).2
    s.rules = rules ∧ (evaluate patternAt ⟨rules, fun _ => 0⟩ evilRequest).1.action = some .block ∧
      (evaluate patternAt s evilRequest).1.action = none := by
  constructor
  · unfold Listed
    decide
  · exact ⟨rfl, by decide, by decide⟩

end Waf
