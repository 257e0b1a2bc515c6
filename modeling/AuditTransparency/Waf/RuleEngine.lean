/-
  Waf — the rules of the firewall (`packages/security/src/waf/ruleEngine.ts`).

  A rule has the address of a `RegExp`.  The objects at the addresses are those of a parameter, `lastIndex` of
  each is a part of the state: an evaluation writes it.

  * `addRule`, `removeRule`, `setEnabled`, `evaluate`: the methods;
  * `verdict`: what an evaluation makes of a list of rules;
  * `step`, `run`: the methods as operations on the state.
-/
import AuditTransparency.Waf.Keyed
import AuditTransparency.Waf.RegExp
import Mathlib.Logic.Function.Basic

namespace Waf

open RegExp (Text)

/-! ## Data -/

inductive RuleTarget where
  | path
  | query
  | body
  | headers
  | any
  deriving DecidableEq

inductive RuleAction where
  | block
  | log
  | challenge
  deriving DecidableEq

inductive RuleSeverity where
  | low
  | medium
  | high
  | critical
  deriving DecidableEq

/-- The address of a `RegExp`. -/
abbrev Pattern := ℕ

/-- `Omit<WafRule, "managed">` -/
structure RuleFields where
  id : String
  name : String
  description : Option String := none
  target : RuleTarget
  pattern : Pattern
  action : RuleAction
  severity : RuleSeverity
  enabled : Bool
  deriving DecidableEq

structure WafRule extends RuleFields where
  managed : Bool
  deriving DecidableEq

structure RuleMatch where
  rule : WafRule
  target : RuleTarget
  sample : Text
  deriving DecidableEq

/-- What `evaluate` returns; the action is `none` for "allow". -/
structure EvaluationResult where
  ruleMatches : List RuleMatch
  action : Option RuleAction
  deriving DecidableEq

/-- What a parsed request holds.  A number is given by its text, an object by its values. -/
inductive Value where
  | nullish
  | string (s : Text)
  | number (text : Text)
  | boolean (b : Bool)
  | array (l : List Value)
  | object (values : List Value)
  | other

structure Request where
  path : Text
  query : Value
  body : Value
  headers : Value

mutual

def flattenValues (depth : ℕ) : Value → List Text
  | .nullish => []
  | .string s => if 5 < depth then [] else [s]
  | .number text => if 5 < depth then [] else [text]
  | .boolean b => if 5 < depth then [] else [RegExp.codes (if b then "true" else "false")]
  | .array l => if 5 < depth then [] else flattenAll (depth + 1) l
  | .object values => if 5 < depth then [] else flattenAll (depth + 1) values
  | .other => []

def flattenAll (depth : ℕ) : List Value → List Text
  | [] => []
  | v :: l => flattenValues depth v ++ flattenAll depth l

end

/-! ## The default rules -/

open RegExp.Expression in
/-- The patterns of the default rules. -/
def defaultPatterns : List RegExp.Expression :=
  let spaces := star space
  let equals := seq spaces (seq (literal "=") spaces)
  [seq boundary (seq
      (alt (seq (literal "union") (seq (plus space) (literal "select")))
      (alt (seq (literal "select") (seq (plus space) (seq (star dot) (seq (plus space) (literal "from")))))
      (alt (seq (literal "drop") (seq (plus space) (literal "table")))
      (alt (seq (literal "insert") (seq (plus space) (literal "into")))
      (alt (seq (literal "or") (seq (plus space) (seq (literal "1") (seq equals (literal "1")))))
        (seq (literal "'") (seq spaces (seq (literal "or") (seq spaces (seq (literal "'1'")
          (seq equals (literal "'1")))))))))))) boundary),
    alt (seq (literal "<script") (char fun c => isSpace c || c == 62))
      (alt (literal "javascript:")
        (seq (literal "on") (seq (anyOf ["error", "load", "click"]) (seq spaces (literal "="))))),
    anyOf ["../", "..\\", "%2e%2e%2f"],
    seq (anyOf [";", "||", "&&"]) (seq spaces (seq
      (alt (anyOf ["cat", "ls", "whoami", "curl", "wget", "nc"])
        (seq (literal "rm") (seq (plus space) (literal "-rf")))) boundary)),
    anyOf ["169.254.169.254", "metadata.google.internal"]]

/-- The default rules; the patterns are at the addresses from 0 on. -/
def defaultRules : List WafRule :=
  [{ id := "sqli-1", name := "SQL injection keywords", target := .any, pattern := 0, action := .block,
     severity := .critical, enabled := true, managed := true },
    { id := "xss-1", name := "Script tag / event handler injection", target := .any, pattern := 1,
      action := .block, severity := .high, enabled := true, managed := true },
    { id := "traversal-1", name := "Path traversal", target := .any, pattern := 2, action := .block,
      severity := .high, enabled := true, managed := true },
    { id := "cmdi-1", name := "Command injection metacharacters", target := .any, pattern := 3,
      action := .block, severity := .critical, enabled := true, managed := true },
    { id := "ssrf-1", name := "Internal metadata endpoint probe", target := .any, pattern := 4,
      action := .block, severity := .critical, enabled := true, managed := true }]

/-! ## `WafRuleEngine` -/

abbrev WafRuleEngine := Keyed fun rule : WafRule => rule.id

/-- The rules, and `lastIndex` of every pattern. -/
structure State where
  rules : WafRuleEngine
  lastIndex : Pattern → ℕ

def construct (initialRules : List WafRule) : WafRuleEngine := Keyed.ofList _ initialRules

def addRule (rules : WafRuleEngine) (rule : RuleFields) : WafRuleEngine :=
  rules.set { rule with managed := false }

/-- An error is thrown for a managed rule; else, whether there was a rule. -/
def removeRule (rules : WafRuleEngine) (id : String) : Except String (Bool × WafRuleEngine) :=
  if (rules.get id).any (·.managed) then
    .error s!"Cannot remove managed rule '{id}' — disable it instead"
  else .ok ((rules.get id).isSome, rules.delete id)

def WafRule.setEnabled (id : String) (enabled : Bool) (rule : WafRule) : WafRule :=
  if rule.id = id then { rule with enabled := enabled } else rule

theorem WafRule.setEnabled_id (id : String) (enabled : Bool) (rule : WafRule) :
    (rule.setEnabled id enabled).id = rule.id := by
  rw [WafRule.setEnabled]
  split <;> rfl

def setEnabled (rules : WafRuleEngine) (id : String) (enabled : Bool) : Bool × WafRuleEngine :=
  ((rules.get id).isSome, rules.mapValues (WafRule.setEnabled id enabled) (WafRule.setEnabled_id id enabled))

def extractTargets (req : Request) : RuleTarget → List Text
  | .path => [req.path]
  | .query => flattenValues 0 req.query
  | .body => flattenValues 0 req.body
  | .headers => flattenValues 0 req.headers
  | .any => req.path :: (flattenValues 0 req.query ++ flattenValues 0 req.body)

/-- The first sample that matches, and `lastIndex` after it. -/
def firstHit (r : RegExp) (lastIndex : ℕ) : List Text → Option Text × ℕ
  | [] => (none, lastIndex)
  | sample :: samples =>
    if (r.test lastIndex sample).1 = true then (some sample, (r.test lastIndex sample).2)
    else firstHit r (r.test lastIndex sample).2 samples

section
variable (regExps : Pattern → RegExp)

/-- The loop of `evaluate`. -/
def matchRules (req : Request) : List WafRule → (Pattern → ℕ) → List RuleMatch × (Pattern → ℕ)
  | [], lastIndex => ([], lastIndex)
  | rule :: rules, lastIndex =>
    if rule.enabled = false then matchRules req rules lastIndex
    else
      let hit := firstHit (regExps rule.pattern) (lastIndex rule.pattern) (extractTargets req rule.target)
      let rest := matchRules req rules (Function.update lastIndex rule.pattern hit.2)
      ((hit.1.map fun sample => ⟨rule, rule.target, sample.take 200⟩).toList ++ rest.1, rest.2)

def actionOf (found : List RuleMatch) : Option RuleAction :=
  if found.any (·.rule.action == .block) then some .block
  else if found.any (·.rule.action == .challenge) then some .challenge
  else if found ≠ [] then some .log
  else none

/-- The result of going through rules. -/
def verdict (rules : List WafRule) (lastIndex : Pattern → ℕ) (req : Request) : EvaluationResult :=
  let found := (matchRules regExps req rules lastIndex).1
  ⟨found, actionOf found⟩

def evaluate (s : State) (req : Request) : EvaluationResult × State :=
  (verdict regExps s.rules.values s.lastIndex req,
    { s with lastIndex := (matchRules regExps req s.rules.values s.lastIndex).2 })

/-! ## Runs -/

inductive Op where
  | addRule (rule : RuleFields)
  | removeRule (id : String)
  | setEnabled (id : String) (enabled : Bool)
  | evaluate (req : Request)

/-- A call that throws changes nothing. -/
def step (s : State) : Op → State
  | .addRule rule => { s with rules := addRule s.rules rule }
  | .removeRule id =>
    match removeRule s.rules id with
    | .error _ => s
    | .ok (_, rules) => { s with rules := rules }
  | .setEnabled id enabled => { s with rules := (setEnabled s.rules id enabled).2 }
  | .evaluate req => (evaluate regExps s req).2

def run (s : State) (ops : List Op) : State := ops.foldl (step regExps) s

end

end Waf
