/-
  Relayer — error recovery (`bridge/relayer/recovery.ts`).

  An error is classified by its message.  For an item that failed, the manager decides on a retry
  or puts the item into the dead letter queue; a retry is left to the caller.
-/
import Mathlib.Algebra.Ring.Nat
import Mathlib.Data.List.Infix
import Mathlib.Logic.Function.Basic
import Mathlib.Tactic.SplitIfs

namespace Relayer

/-- A string of the relayer. -/
abbrev Text := List Char

/-! ## Classification -/

inductive ErrorCategory where
  | network
  | rateLimit
  | validation
  | contract
  | unknown
  deriving DecidableEq

structure ClassifiedError where
  category : ErrorCategory
  message : Text
  retryable : Bool
  deriving DecidableEq

/-- A row of `CATEGORY_PATTERNS`; `words` are the alternatives of its expression. -/
structure CategoryPattern where
  category : ErrorCategory
  retryable : Bool
  words : List Text

/-- One of the words occurs in the message, in any case. -/
def CategoryPattern.test (p : CategoryPattern) (msg : Text) : Bool :=
  p.words.any fun word => word.map Char.toLower <:+: msg.map Char.toLower

def categoryPatterns : List CategoryPattern := [
  ⟨.network, true, ["ECONNREFUSED".toList, "ETIMEDOUT".toList, "ENOTFOUND".toList, "ECONNRESET".toList,
    "socket hang up".toList, "network".toList]⟩,
  ⟨.rateLimit, true, ["rate limit".toList, "too many requests".toList, "429".toList]⟩,
  ⟨.validation, false, ["invalid".toList, "missing required field".toList, "validation".toList]⟩,
  ⟨.contract, false, ["revert".toList, "InvalidProof".toList, "execution reverted".toList,
    "contract".toList]⟩]

def classifyError (message : Text) : ClassifiedError :=
  match categoryPatterns.find? (·.test message) with
  | some pattern => ⟨pattern.category, message, pattern.retryable⟩
  | none => ⟨.unknown, message, false⟩

/-! ## Recovery strategies -/

structure RecoveryStrategy where
  maxRetries : ℕ
  backoffMs : ℕ → ℕ

def defaultStrategies : ErrorCategory → RecoveryStrategy
  | .network => ⟨5, fun attempt => min 30000 (500 * 2 ^ attempt)⟩
  | .rateLimit => ⟨5, fun attempt => min 60000 (1000 * 2 ^ attempt)⟩
  | .validation => ⟨0, fun _ => 0⟩
  | .contract => ⟨1, fun _ => 2000⟩
  | .unknown => ⟨2, fun attempt => 1000 * (attempt + 1)⟩

structure RecoveryDecision where
  shouldRetry : Bool
  delayMs : ℕ
  attempt : ℕ
  deriving DecidableEq

/-- The attempts are counted for each key. -/
structure RecoveryPlanner where
  strategies : ErrorCategory → RecoveryStrategy
  attempts : Text → Option ℕ := fun _ => none

namespace RecoveryPlanner

def attemptsFor (p : RecoveryPlanner) (key : Text) : ℕ := (p.attempts key).getD 0

/-- `decide`: the decision, and the planner after it. -/
def decide (p : RecoveryPlanner) (key : Text) (error : ClassifiedError) :
    RecoveryDecision × RecoveryPlanner :=
  let strategy := p.strategies error.category
  let attempt := p.attemptsFor key
  if error.retryable = false ∨ strategy.maxRetries ≤ attempt then (⟨false, 0, attempt⟩, p)
  else (⟨true, strategy.backoffMs attempt, attempt + 1⟩,
    { p with attempts := Function.update p.attempts key (some (attempt + 1)) })

def clear (p : RecoveryPlanner) (key : Text) : RecoveryPlanner :=
  { p with attempts := Function.update p.attempts key none }

/-- There is no retry after an error that is not retryable. -/
theorem decide_of_not_retryable {p : RecoveryPlanner} {key : Text} {error : ClassifiedError}
    (h : error.retryable = false) : (p.decide key error).1.shouldRetry = false := by
  rw [decide, if_pos (.inl h)]

end RecoveryPlanner

/-! ## Dead letter queue -/

section
variable {T : Type}

structure DeadLetterEntry (T : Type) where
  item : T
  error : ClassifiedError
  attempts : ℕ
  firstFailedAt : ℕ
  lastFailedAt : ℕ
  deriving DecidableEq

structure DeadLetterQueue (T : Type) where
  entries : List (DeadLetterEntry T) := []
  maxSize : ℕ := 1000

/-- `push`: the queue, and the entry that has been shifted out of it. -/
def DeadLetterQueue.push (q : DeadLetterQueue T) (item : T) (error : ClassifiedError) (attempts now : ℕ) :
    DeadLetterQueue T × Option (DeadLetterEntry T) :=
  let entries := q.entries ++ [⟨item, error, attempts, now, now⟩]
  if q.maxSize < entries.length then ({ q with entries := entries.tail }, entries.head?)
  else ({ q with entries := entries }, none)

/-- Nothing is lost between the queue and what is shifted out. -/
theorem DeadLetterQueue.push_spec (q : DeadLetterQueue T) (item : T) (error : ClassifiedError)
    (attempts now : ℕ) :
    (q.push item error attempts now).2.toList ++ (q.push item error attempts now).1.entries =
      q.entries ++ [⟨item, error, attempts, now, now⟩] := by
  rw [push]
  split_ifs
  · cases q.entries <;> rfl
  · rfl

/-! ## Orchestration -/

structure ErrorRecoveryManager (T : Type) where
  planner : RecoveryPlanner
  deadLetterQueue : DeadLetterQueue T := {}

/-- `handle`: the decision, the manager after it, and what was shifted out of the dead letter queue. -/
def ErrorRecoveryManager.handle (m : ErrorRecoveryManager T) (key : Text) (item : T) (err : Text) (now : ℕ) :
    RecoveryDecision × ErrorRecoveryManager T × Option (DeadLetterEntry T) :=
  let classified := classifyError err
  let (decision, planner) := m.planner.decide key classified
  if decision.shouldRetry then (decision, { m with planner := planner }, none)
  else
    let (queue, shifted) := m.deadLetterQueue.push item classified decision.attempt now
    (decision, ⟨planner.clear key, queue⟩, shifted)

def ErrorRecoveryManager.resolved (m : ErrorRecoveryManager T) (key : Text) : ErrorRecoveryManager T :=
  { m with planner := m.planner.clear key }

/-- After an error that is not retryable, the item is in the dead letter queue. -/
theorem ErrorRecoveryManager.handle_items (m : ErrorRecoveryManager T) (key : Text) (item : T) (now : ℕ)
    {err : Text} (h : (classifyError err).retryable = false) :
    ((m.handle key item err now).2.2.toList ++ (m.handle key item err now).2.1.deadLetterQueue.entries).map
        DeadLetterEntry.item = m.deadLetterQueue.entries.map DeadLetterEntry.item ++ [item] := by
  have hstop : (m.planner.decide key (classifyError err)).1.shouldRetry = false :=
    RecoveryPlanner.decide_of_not_retryable h
  simp only [handle, hstop, Bool.false_eq_true, if_false]
  rw [DeadLetterQueue.push_spec, List.map_append]
  rfl

end

end Relayer
