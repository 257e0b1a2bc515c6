/-
  Soroban contracts — invocations.

  A contract function is a `Call`: it reads the environment of the invocation
  (`Env`), transforms the ledger, and returns a value or traps.  A trap carries
  no ledger, so a failed invocation leaves the ledger as it was.

  * `Post m Q env s`: if `m` returns from `s`, the result satisfies `Q`.  The
    `post_*` lemmas are equivalences, so `simp` evaluates a `do` block from
    left to right and leaves what the branches of the block require;
  * `post_foldlM` is the rule for loops, with an invariant over the elements
    already visited;
  * the `run_*` lemmas compute the result of a call.
-/
import AuditTransparency.Soroban.Storage

namespace Soroban

/-- `Bytes` of the host. -/
abbrev Bytes := List UInt8

/-- A `Symbol` is its name. -/
abbrev Symbol := String

/-- An `Address`, given by its strkey: 56 characters, unique for the address. -/
structure Address where
  strkey : Bytes
  length_eq : strkey.length = 56
  deriving DecidableEq

/-- What the host supplies to one invocation. -/
structure Env where
  /-- `env.ledger().timestamp()` -/
  timestamp : ℕ
  /-- `env.ledger().sequence()` -/
  sequence : ℕ
  /-- the addresses that authorised the invocation, each with as many entries as the invocation asks for:
      a call may ask one address several times -/
  auth : Address → Bool
  /-- `symbol.to_val().get_payload()`: the characters of a short symbol, and
      otherwise an object handle of this invocation -/
  payload : Symbol → UInt64

/-- How an invocation fails: with an error of the contract, for want of an
    authorisation, on `unwrap` of `None`, on arithmetic overflow, on a difference
    below zero, or on a division by zero. -/
inductive Trap (E : Type) where
  | contract (e : E)
  | auth
  | unwrap
  | overflow
  | underflow
  | divisionByZero
  deriving DecidableEq

/-- A contract function, after it received its arguments. -/
def Call (E : Type) (L : Layout) (α : Type) : Type :=
  Env → Ledger L → Except (Trap E) (α × Ledger L)

namespace Call
variable {E : Type} {L : Layout} {α β : Type}

def run (m : Call E L α) (env : Env) (s : Ledger L) : Except (Trap E) (α × Ledger L) := m env s

instance : Monad (Call E L) where
  pure a := fun _ s => .ok (a, s)
  bind m f := fun env s =>
    match m env s with
    | .ok (a, s') => f a env s'
    | .error e => .error e

/-! ## Primitives -/

def getEnv : Call E L Env := fun env s => .ok (env, s)

def trap (e : Trap E) : Call E L α := fun _ _ => .error e

/-- `panic_with_error!` when the condition holds. -/
def rejectIf (c : Prop) [Decidable c] (e : E) : Call E L Unit :=
  if c then trap (.contract e) else pure ()

/-- `address.require_auth()`, which uses up one of the entries of the address. -/
def requireAuth (a : Address) : Call E L Unit := fun env s =>
  if env.auth a then .ok ((), s) else .error .auth

/-- `Option::unwrap` -/
def unwrap (o : Option α) : Call E L α := fun _ s =>
  match o with
  | some a => .ok (a, s)
  | none => .error .unwrap

/-- `unwrap_or_else(|| panic_with_error!(..))` -/
def unwrapOr (o : Option α) (e : E) : Call E L α := fun _ s =>
  match o with
  | some a => .ok (a, s)
  | none => .error (.contract e)

/-- Addition with the overflow check of a `w`-bit unsigned type. -/
def addChecked (w a b : ℕ) : Call E L ℕ := fun _ s =>
  if a + b < 2 ^ w then .ok (a + b, s) else .error .overflow

/-- Multiplication with the same check. -/
def mulChecked (w a b : ℕ) : Call E L ℕ := fun _ s =>
  if a * b < 2 ^ w then .ok (a * b, s) else .error .overflow

/-- Subtraction of an unsigned type. -/
def subChecked (a b : ℕ) : Call E L ℕ := fun _ s =>
  if b ≤ a then .ok (a - b, s) else .error .underflow

def divChecked (a b : ℕ) : Call E L ℕ := fun _ s =>
  if b = 0 then .error .divisionByZero else .ok (a / b, s)

def doIf (c : Prop) [Decidable c] (m : Call E L Unit) : Call E L Unit := if c then m else pure ()

/-- `if let Some(v) = o { .. } else { .. }` -/
def onSome (o : Option β) (f : β → Call E L α) (m : Call E L α) : Call E L α :=
  match o with
  | some b => f b
  | none => m

/-- `if let Some(v) = o { .. }` -/
def ifSome (o : Option α) (f : α → Call E L Unit) : Call E L Unit :=
  match o with
  | some a => f a
  | none => pure ()

/-- `env.storage().instance()` -/
def load (L : Layout) (f : L.Field) (k : L.Key f) : Call E L (Option (L.Val f)) := fun _ s =>
  .ok (s.inst f k, s)

def store (L : Layout) (f : L.Field) (k : L.Key f) (v : L.Val f) : Call E L Unit := fun _ s =>
  .ok ((), s.put f k v)

def clear (L : Layout) (f : L.Field) (k : L.Key f) : Call E L Unit := fun _ s => .ok ((), s.del f k)

/-- `env.storage().persistent()` -/
def hasPers (L : Layout) (f : L.Field) (k : L.Key f) : Call E L Bool := fun _ s =>
  .ok ((s.persistent f k).isSome, s)

def loadPers (L : Layout) (f : L.Field) (k : L.Key f) : Call E L (Option (L.Val f)) := fun _ s =>
  .ok (s.persistent f k, s)

def storePers (L : Layout) (f : L.Field) (k : L.Key f) (v : L.Val f) : Call E L Unit := fun _ s =>
  .ok ((), s.putPers f k v)

/-- `env.storage().temporary()` -/
def loadTemp (L : Layout) (f : L.Field) (k : L.Key f) : Call E L (Option (L.Val f)) := fun _ s =>
  .ok (s.temporary f k, s)

def storeTemp (L : Layout) (f : L.Field) (k : L.Key f) (v : L.Val f) : Call E L Unit := fun _ s =>
  .ok ((), s.putTemp f k v)

def clearTemp (L : Layout) (f : L.Field) (k : L.Key f) : Call E L Unit := fun _ s =>
  .ok ((), s.delTemp f k)

/-- `env.events().publish(..)` -/
def publish (L : Layout) (n : L.Note) : Call E L Unit := fun _ s => .ok ((), s.publish n)

/-! ## Results -/

section
variable (env : Env) (s : Ledger L)

@[simp] theorem run_pure (a : α) : (pure a : Call E L α).run env s = .ok (a, s) := rfl

theorem run_bind (m : Call E L α) (f : α → Call E L β) :
    (m >>= f).run env s = (m.run env s).bind fun p => (f p.1).run env p.2 := by
  simp only [run, bind, Except.bind]
  rcases m env s with e | ⟨a, s'⟩ <;> rfl

theorem run_bind_ok {m : Call E L α} {a : α} {s' : Ledger L} (h : m.run env s = .ok (a, s'))
    (f : α → Call E L β) : (m >>= f).run env s = (f a).run env s' := by
  rw [run_bind, h]; rfl

theorem run_bind_error {m : Call E L α} {e : Trap E} (h : m.run env s = .error e)
    (f : α → Call E L β) : (m >>= f).run env s = .error e := by
  rw [run_bind, h]; rfl

/-- The call before a returned value. -/
theorem of_run_map {m : Call E L α} {g : α → β} {b : β} {s' : Ledger L}
    (h : (m >>= fun a => pure (g a)).run env s = .ok (b, s')) :
    ∃ a, m.run env s = .ok (a, s') ∧ g a = b := by
  rcases hm : m.run env s with e | ⟨a, s₁⟩
  · rw [run_bind_error env s hm] at h; cases h
  · rw [run_bind_ok env s hm] at h
    cases h
    exact ⟨a, rfl, rfl⟩

theorem run_ite (c : Prop) [Decidable c] (m n : Call E L α) :
    (if c then m else n).run env s = if c then m.run env s else n.run env s := by
  split_ifs <;> rfl

@[simp] theorem run_getEnv : (getEnv : Call E L Env).run env s = .ok (env, s) := rfl
@[simp] theorem run_load (f : L.Field) (k : L.Key f) :
    run (α := no_index (Option (L.Val f))) (load L f k : Call E L _) env s = .ok (s.inst f k, s) := rfl
@[simp] theorem run_store (f : L.Field) (k : L.Key f) (v : L.Val f) :
    (store L f k v : Call E L _).run env s = .ok ((), s.put f k v) := rfl
@[simp] theorem run_clear (f : L.Field) (k : L.Key f) :
    (clear L f k : Call E L _).run env s = .ok ((), s.del f k) := rfl
@[simp] theorem run_loadPers (f : L.Field) (k : L.Key f) :
    run (α := no_index (Option (L.Val f))) (loadPers L f k : Call E L _) env s =
      .ok (s.persistent f k, s) := rfl
@[simp] theorem run_publish (n : L.Note) :
    (publish L n : Call E L _).run env s = .ok ((), s.publish n) := rfl
@[simp] theorem run_trap (e : Trap E) : (trap e : Call E L α).run env s = .error e := rfl
theorem run_addChecked {w a b : ℕ} (h : a + b < 2 ^ w) :
    (addChecked w a b : Call E L ℕ).run env s = .ok (a + b, s) := if_pos h

theorem run_mulChecked {w a b : ℕ} (h : a * b < 2 ^ w) :
    (mulChecked w a b : Call E L ℕ).run env s = .ok (a * b, s) := if_pos h

theorem run_subChecked {a b : ℕ} (h : b ≤ a) :
    (subChecked a b : Call E L ℕ).run env s = .ok (a - b, s) := if_pos h

theorem run_divChecked {a b : ℕ} (h : b ≠ 0) :
    (divChecked a b : Call E L ℕ).run env s = .ok (a / b, s) := if_neg h

@[simp] theorem run_unwrap_some (a : α) : (unwrap (some a) : Call E L α).run env s = .ok (a, s) := rfl

theorem run_unwrapOr_iff {o : Option α} {e : E} {a : α} :
    (unwrapOr o e : Call E L α).run env s = .ok (a, s) ↔ o = some a := by
  cases o with
  | none =>
    constructor
    · intro h
      cases h
    · intro h
      cases h
  | some b =>
    have hrun : (unwrapOr (some b) e : Call E L α).run env s = .ok (b, s) := rfl
    rw [hrun]
    simp

theorem run_doIf (c : Prop) [Decidable c] (m : Call E L Unit) :
    (doIf c m).run env s = if c then m.run env s else .ok ((), s) := by
  unfold doIf; split_ifs <;> rfl

theorem run_requireAuth (a : Address) :
    (requireAuth a : Call E L Unit).run env s = if env.auth a then .ok ((), s) else .error .auth := rfl

theorem run_rejectIf (c : Prop) [Decidable c] (e : E) :
    (rejectIf c e : Call E L Unit).run env s =
      if c then .error (.contract e) else .ok ((), s) := by
  unfold rejectIf; split_ifs <;> rfl

end

/-! ## Postconditions -/

/-- If `m` returns from `s`, its result and the ledger it leaves satisfy `Q`. -/
def Post (m : Call E L α) (Q : α → Ledger L → Prop) (env : Env) (s : Ledger L) : Prop :=
  ∀ a s', m.run env s = .ok (a, s') → Q a s'

theorem Post.of_run {m : Call E L α} {Q : α → Ledger L → Prop} {env : Env} {s s' : Ledger L} {a : α}
    (h : Post m Q env s) (hr : m.run env s = .ok (a, s')) : Q a s' := h a s' hr

theorem Post.mono {m : Call E L α} {P Q : α → Ledger L → Prop} {env : Env} {s : Ledger L}
    (h : Post m P env s) (hPQ : ∀ a s', P a s' → Q a s') : Post m Q env s :=
  fun a s' hr => hPQ a s' (h a s' hr)

theorem Post.and {m : Call E L α} {P Q : α → Ledger L → Prop} {env : Env} {s : Ledger L}
    (h : Post m P env s) (h' : Post m Q env s) : Post m (fun a s' => P a s' ∧ Q a s') env s :=
  fun a s' hr => ⟨h a s' hr, h' a s' hr⟩

section
variable {env : Env} {s : Ledger L} {Q : α → Ledger L → Prop}

theorem post_of_run {m : Call E L α} {a : α} {s' : Ledger L} (h : m.run env s = .ok (a, s')) :
    Post m Q env s ↔ Q a s' := by
  refine ⟨fun hp => hp a s' h, fun hq b t hr => ?_⟩
  rw [h] at hr; cases hr; exact hq

@[simp] theorem post_pure {a : α} : Post (pure a : Call E L α) Q env s ↔ Q a s := post_of_run rfl

@[simp] theorem post_bind {m : Call E L β} {f : β → Call E L α} :
    Post (m >>= f) Q env s ↔ Post m (fun b s' => Post (f b) Q env s') env s := by
  constructor
  · intro h b s' hm a s'' hf
    exact h a s'' (by rw [run_bind_ok env s hm]; exact hf)
  · intro h a s'' hr
    rcases hm : m.run env s with e | ⟨b, s'⟩
    · rw [run_bind_error env s hm] at hr; cases hr
    · rw [run_bind_ok env s hm] at hr; exact h b s' hm a s'' hr

@[simp] theorem post_trap {e : Trap E} : Post (trap e : Call E L α) Q env s ↔ True :=
  iff_true_intro fun _ _ h => by cases h

@[simp] theorem post_ite {c : Prop} [Decidable c] {m n : Call E L α} :
    Post (if c then m else n) Q env s ↔ (c → Post m Q env s) ∧ (¬c → Post n Q env s) := by
  split_ifs with h <;> simp [h]

@[simp] theorem post_getEnv {R : Env → Ledger L → Prop} :
    Post (getEnv : Call E L Env) R env s ↔ R env s := post_of_run rfl

@[simp] theorem post_rejectIf {c : Prop} [Decidable c] {e : E} {R : Unit → Ledger L → Prop} :
    Post (rejectIf c e : Call E L Unit) R env s ↔ (¬c → R () s) := by
  unfold rejectIf; split_ifs with h <;> simp [h]

@[simp] theorem post_requireAuth {a : Address} {R : Unit → Ledger L → Prop} :
    Post (requireAuth a : Call E L Unit) R env s ↔ (env.auth a = true → R () s) := by
  by_cases h : env.auth a = true
  · simp only [h, forall_true_left]; exact post_of_run (by simp [run, requireAuth, h])
  · simp only [h]
    exact ⟨fun _ h' => (by cases h'), fun _ b t hr => by simp [run, requireAuth, h] at hr⟩

@[simp] theorem post_unwrap {o : Option α} :
    Post (unwrap o : Call E L α) Q env s ↔ ∀ a, o = some a → Q a s := by
  cases o with
  | none => exact ⟨fun _ a h => (by cases h), fun _ a t h => by cases h⟩
  | some a => rw [post_of_run (run_unwrap_some env s a)]; simp

@[simp] theorem post_unwrapOr {o : Option α} {e : E} :
    Post (unwrapOr o e : Call E L α) Q env s ↔ ∀ a, o = some a → Q a s := by
  cases o with
  | none => exact ⟨fun _ a h => (by cases h), fun _ a t h => by cases h⟩
  | some a =>
    have hrun : (unwrapOr (some a) e : Call E L α).run env s = .ok (a, s) := rfl
    rw [post_of_run hrun]; simp

@[simp] theorem post_addChecked {w a b : ℕ} {R : ℕ → Ledger L → Prop} :
    Post (addChecked w a b : Call E L ℕ) R env s ↔ (a + b < 2 ^ w → R (a + b) s) := by
  by_cases h : a + b < 2 ^ w
  · simp only [h, forall_true_left]; exact post_of_run (run_addChecked env s h)
  · simp only [h]
    exact ⟨fun _ h' => (by cases h'), fun _ b t hr => by simp [run, addChecked, h] at hr⟩

@[simp] theorem post_mulChecked {w a b : ℕ} {R : ℕ → Ledger L → Prop} :
    Post (mulChecked w a b : Call E L ℕ) R env s ↔ (a * b < 2 ^ w → R (a * b) s) := by
  by_cases h : a * b < 2 ^ w
  · simp only [h, forall_true_left]; exact post_of_run (run_mulChecked env s h)
  · simp only [h]
    exact ⟨fun _ h' => (by cases h'), fun _ b t hr => by simp [run, mulChecked, h] at hr⟩

@[simp] theorem post_subChecked {a b : ℕ} {R : ℕ → Ledger L → Prop} :
    Post (subChecked a b : Call E L ℕ) R env s ↔ (b ≤ a → R (a - b) s) := by
  by_cases h : b ≤ a
  · simp only [h, forall_true_left]; exact post_of_run (run_subChecked env s h)
  · simp only [h]
    exact ⟨fun _ h' => (by cases h'), fun _ b t hr => by simp [run, subChecked, h] at hr⟩

@[simp] theorem post_divChecked {a b : ℕ} {R : ℕ → Ledger L → Prop} :
    Post (divChecked a b : Call E L ℕ) R env s ↔ (b ≠ 0 → R (a / b) s) := by
  by_cases h : b = 0
  · simp only [h, ne_eq, not_true_eq_false]
    exact ⟨fun _ h' => (by cases h'), fun _ b t hr => by simp [run, divChecked] at hr⟩
  · simp only [ne_eq, h, not_false_eq_true, forall_true_left]
    exact post_of_run (run_divChecked env s h)

@[simp] theorem post_doIf {c : Prop} [Decidable c] {m : Call E L Unit} {R : Unit → Ledger L → Prop} :
    Post (doIf c m) R env s ↔ (c → Post m R env s) ∧ (¬c → R () s) := by
  unfold doIf; simp

@[simp] theorem post_onSome {o : Option β} {f : β → Call E L α} {m : Call E L α} :
    Post (onSome o f m) Q env s ↔
      (∀ b, o = some b → Post (f b) Q env s) ∧ (o = none → Post m Q env s) := by
  cases o <;> simp [onSome]

@[simp] theorem post_ifSome {o : Option β} {f : β → Call E L Unit} {R : Unit → Ledger L → Prop} :
    Post (ifSome o f) R env s ↔ (∀ b, o = some b → Post (f b) R env s) ∧ (o = none → R () s) := by
  cases o <;> simp [ifSome]

@[simp] theorem post_load {f : L.Field} {k : L.Key f} {R : Option (L.Val f) → Ledger L → Prop} :
    Post (α := no_index (Option (L.Val f))) (load L f k : Call E L _) R env s ↔ R (s.inst f k) s :=
  post_of_run rfl

@[simp] theorem post_store {f : L.Field} {k : L.Key f} {v : L.Val f} {R : Unit → Ledger L → Prop} :
    Post (store L f k v : Call E L _) R env s ↔ R () (s.put f k v) := post_of_run rfl

@[simp] theorem post_clear {f : L.Field} {k : L.Key f} {R : Unit → Ledger L → Prop} :
    Post (clear L f k : Call E L _) R env s ↔ R () (s.del f k) := post_of_run rfl

@[simp] theorem post_hasPers {f : L.Field} {k : L.Key f} {R : Bool → Ledger L → Prop} :
    Post (hasPers L f k : Call E L _) R env s ↔ R (s.persistent f k).isSome s := post_of_run rfl

@[simp] theorem post_loadPers {f : L.Field} {k : L.Key f} {R : Option (L.Val f) → Ledger L → Prop} :
    Post (α := no_index (Option (L.Val f))) (loadPers L f k : Call E L _) R env s ↔
      R (s.persistent f k) s := post_of_run rfl

@[simp] theorem post_storePers {f : L.Field} {k : L.Key f} {v : L.Val f} {R : Unit → Ledger L → Prop} :
    Post (storePers L f k v : Call E L _) R env s ↔ R () (s.putPers f k v) := post_of_run rfl

@[simp] theorem post_loadTemp {f : L.Field} {k : L.Key f} {R : Option (L.Val f) → Ledger L → Prop} :
    Post (α := no_index (Option (L.Val f))) (loadTemp L f k : Call E L _) R env s ↔
      R (s.temporary f k) s := post_of_run rfl

@[simp] theorem post_storeTemp {f : L.Field} {k : L.Key f} {v : L.Val f} {R : Unit → Ledger L → Prop} :
    Post (storeTemp L f k v : Call E L _) R env s ↔ R () (s.putTemp f k v) := post_of_run rfl

@[simp] theorem post_clearTemp {f : L.Field} {k : L.Key f} {R : Unit → Ledger L → Prop} :
    Post (clearTemp L f k : Call E L _) R env s ↔ R () (s.delTemp f k) := post_of_run rfl

@[simp] theorem post_publish {n : L.Note} {R : Unit → Ledger L → Prop} :
    Post (publish L n : Call E L _) R env s ↔ R () (s.publish n) := post_of_run rfl

end

/-! ## Loops -/

/-- **Loop rule.**  `I pre a s` holds when the loop has visited `pre`, with
    accumulator `a` and ledger `s`. -/
theorem post_foldlM {env : Env} {f : α → β → Call E L α} (I : List β → α → Ledger L → Prop) :
    ∀ (l : List β) (a : α) (s : Ledger L) (pre : List β), I pre a s →
      (∀ done b rest a s, pre ++ l = done ++ b :: rest → I done a s →
        Post (f a b) (I (done ++ [b])) env s) →
      Post (l.foldlM f a) (I (pre ++ l)) env s
  | [], a, s, pre, h, _ => by simpa using h
  | b :: l, a, s, pre, h, hstep => by
    rw [List.foldlM_cons, post_bind]
    refine (hstep pre b l a s rfl h).mono fun a' s' h' => ?_
    have ih := post_foldlM I l a' s' (pre ++ [b]) h' fun done b' rest a s he => hstep done b' rest a s
      (by simpa using he)
    simpa using ih

/-- `for i in a..a + n`, with an invariant over the number of rounds. -/
theorem post_range' {env : Env} {f : α → ℕ → Call E L α} (I : ℕ → α → Ledger L → Prop) :
    ∀ (n a : ℕ) (x : α) (s : Ledger L), I 0 x s →
      (∀ j x s, j < n → I j x s → Post (f x (a + j)) (I (j + 1)) env s) →
      Post ((List.range' a n).foldlM f x) (I n) env s
  | 0, _, _, _, h, _ => by simpa using h
  | n + 1, a, x, s, h, hstep => by
    rw [List.range'_succ, List.foldlM_cons, post_bind]
    refine (hstep 0 x s (by omega) h).mono fun x' s' h' => ?_
    refine post_range' (fun j => I (j + 1)) n (a + 1) x' s' h' fun j y t hj hI => ?_
    have := hstep (j + 1) y t (by omega) hI
    rwa [show a + (j + 1) = a + 1 + j by omega] at this

/-- `for i in 0..n` -/
theorem post_range {env : Env} {f : α → ℕ → Call E L α} (I : ℕ → α → Ledger L → Prop) {n : ℕ}
    {x : α} {s : Ledger L} (h : I 0 x s)
    (hstep : ∀ j x s, j < n → I j x s → Post (f x j) (I (j + 1)) env s) :
    Post ((List.range n).foldlM f x) (I n) env s := by
  rw [List.range_eq_range']
  refine post_range' I n 0 x s h fun j y t hj hI => ?_
  rw [Nat.zero_add]; exact hstep j y t hj hI

end Call

end Soroban
