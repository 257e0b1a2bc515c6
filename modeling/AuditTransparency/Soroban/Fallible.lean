/-
  Soroban contracts — functions that return a `Result`.

  An error is a value here, and what the function has written before it returns one stays
  written.  A trap undoes the call, as it does everywhere.

  * `Post m Q R env s`: if `m` returns a value from `s`, that and the ledger satisfy `Q`, and
    if it returns an error, `R`.  As for calls, the `post_*` lemmas are equivalences;
  * the caller may pass an error on until the host sees it, which then undoes the call:
    `Steps` allows for both.
-/
import AuditTransparency.Soroban.Script

namespace Soroban

/-- A function that returns a `Result` with errors of the type `ε`. -/
def Fallible (ε : Type) (L : Layout) (α : Type) : Type := Call Empty L (Except ε α)

namespace Fallible
variable {ε : Type} {L : Layout} {α β : Type}

/-- The result of the function as one of the host, which fails only for a trap. -/
def toCall (m : Fallible ε L α) : Call Empty L (Except ε α) := m

def run (m : Fallible ε L α) (env : Env) (s : Ledger L) : Except (Trap Empty) (Except ε α × Ledger L) :=
  m env s

instance : Monad (Fallible ε L) where
  pure a := fun _ s => .ok (.ok a, s)
  bind m f := fun env s =>
    match m env s with
    | .ok (.ok a, s') => f a env s'
    | .ok (.error e, s') => .ok (.error e, s')
    | .error t => .error t

/-- What cannot return an error. -/
def lift (m : Call Empty L α) : Fallible ε L α := fun env s =>
  match m env s with
  | .ok (a, s') => .ok (.ok a, s')
  | .error t => .error t

/-- `return Err(e)` -/
def fail (e : ε) : Fallible ε L α := fun _ s => .ok (.error e, s)

/-- `if c { return Err(e); }` -/
def failIf (c : Prop) [Decidable c] (e : ε) : Fallible ε L Unit := if c then fail e else pure ()

/-- `o.ok_or(e)?` -/
def okOr (o : Option α) (e : ε) : Fallible ε L α :=
  match o with
  | some a => pure a
  | none => fail e

theorem run_bind_ok {env : Env} {s s' : Ledger L} {m : Fallible ε L β} {f : β → Fallible ε L α} {b : β}
    (h : m.run env s = .ok (.ok b, s')) : (m >>= f).run env s = (f b).run env s' := by
  have hrun : (m >>= f).run env s = match m.run env s with
    | .ok (.ok b, s') => (f b).run env s'
    | .ok (.error e, s') => .ok (.error e, s')
    | .error t => .error t := rfl
  rw [hrun, h]

theorem run_bind_trap {env : Env} {s : Ledger L} {m : Fallible ε L β} {f : β → Fallible ε L α} {t : Trap Empty}
    (h : m.run env s = .error t) : (m >>= f).run env s = .error t := by
  have hrun : (m >>= f).run env s = match m.run env s with
    | .ok (.ok b, s') => (f b).run env s'
    | .ok (.error e, s') => .ok (.error e, s')
    | .error t => .error t := rfl
  rw [hrun, h]

theorem run_lift_ok {env : Env} {s s' : Ledger L} {m : Call Empty L α} {a : α} (h : m.run env s = .ok (a, s')) :
    (lift m : Fallible ε L α).run env s = .ok (.ok a, s') := by
  have hrun : (lift m : Fallible ε L α).run env s = match m.run env s with
    | .ok (a, s') => .ok (.ok a, s')
    | .error t => .error t := rfl
  rw [hrun, h]

/-! ## Postconditions -/

/-- If `m` returns a value from `s`, then `Q`, and if it returns an error, then `R`. -/
def Post (m : Fallible ε L α) (Q : α → Ledger L → Prop) (R : ε → Ledger L → Prop) (env : Env)
    (s : Ledger L) : Prop :=
  (∀ a s', m.run env s = .ok (.ok a, s') → Q a s') ∧ ∀ e s', m.run env s = .ok (.error e, s') → R e s'

section
variable {env : Env} {s : Ledger L} {Q : α → Ledger L → Prop} {R : ε → Ledger L → Prop}

theorem Post.of_ok {m : Fallible ε L α} {a : α} {s' : Ledger L} (h : Post m Q R env s)
    (hr : m.run env s = .ok (.ok a, s')) : Q a s' := h.1 a s' hr

theorem Post.of_error {m : Fallible ε L α} {e : ε} {s' : Ledger L} (h : Post m Q R env s)
    (hr : m.run env s = .ok (.error e, s')) : R e s' := h.2 e s' hr

theorem Post.mono {m : Fallible ε L α} {Q' : α → Ledger L → Prop} {R' : ε → Ledger L → Prop}
    (h : Post m Q R env s) (hQ : ∀ a s', Q a s' → Q' a s') (hR : ∀ e s', R e s' → R' e s') :
    Post m Q' R' env s :=
  ⟨fun a s' hr => hQ a s' (h.1 a s' hr), fun e s' hr => hR e s' (h.2 e s' hr)⟩

theorem post_of_ok {m : Fallible ε L α} {a : α} {s' : Ledger L} (h : m.run env s = .ok (.ok a, s')) :
    Post m Q R env s ↔ Q a s' := by
  simp only [Post, h, Except.ok.injEq, Prod.mk.injEq, and_imp, reduceCtorEq, false_implies,
    implies_true, and_true]
  constructor
  · intro hq
    exact hq a s' rfl rfl
  · rintro hq _ _ rfl rfl
    exact hq

theorem post_of_error {m : Fallible ε L α} {e : ε} {s' : Ledger L}
    (h : m.run env s = .ok (.error e, s')) : Post m Q R env s ↔ R e s' := by
  simp only [Post, h, Except.ok.injEq, Except.error.injEq, Prod.mk.injEq, and_imp, reduceCtorEq,
    false_implies, implies_true, true_and]
  constructor
  · intro hr
    exact hr e s' rfl rfl
  · rintro hr _ _ rfl rfl
    exact hr

theorem post_of_trap {m : Fallible ε L α} {t : Trap Empty} (h : m.run env s = .error t) :
    Post m Q R env s := by
  simp only [Post, h, reduceCtorEq, false_implies, implies_true, and_self]

@[simp] theorem post_pure {a : α} : Post (pure a : Fallible ε L α) Q R env s ↔ Q a s := post_of_ok rfl

@[simp] theorem post_fail {e : ε} : Post (fail e : Fallible ε L α) Q R env s ↔ R e s := post_of_error rfl

@[simp] theorem post_bind {m : Fallible ε L β} {f : β → Fallible ε L α} :
    Post (m >>= f) Q R env s ↔ Post m (fun b s' => Post (f b) Q R env s') R env s := by
  have hrun : (m >>= f).run env s = match m.run env s with
    | .ok (.ok b, s') => (f b).run env s'
    | .ok (.error e, s') => .ok (.error e, s')
    | .error t => .error t := rfl
  rcases hm : m.run env s with t | ⟨e | b, s₁⟩ <;> rw [hm] at hrun
  · exact iff_of_true (post_of_trap hrun) (post_of_trap hm)
  · rw [post_of_error hrun, post_of_error hm]
  · rw [post_of_ok hm, Post, hrun]
    exact Iff.rfl

@[simp] theorem post_ite {c : Prop} [Decidable c] {m n : Fallible ε L α} :
    Post (if c then m else n) Q R env s ↔ (c → Post m Q R env s) ∧ (¬c → Post n Q R env s) := by
  split_ifs with h <;> simp [h]

@[simp] theorem post_failIf {c : Prop} [Decidable c] {e : ε} {Q : Unit → Ledger L → Prop} :
    Post (failIf c e : Fallible ε L Unit) Q R env s ↔ (c → R e s) ∧ (¬c → Q () s) := by
  rw [failIf, post_ite, post_fail, post_pure]

@[simp] theorem post_okOr {o : Option α} {e : ε} :
    Post (okOr o e : Fallible ε L α) Q R env s ↔ (∀ a, o = some a → Q a s) ∧ (o = none → R e s) := by
  cases o with
  | none => simp [okOr]
  | some a => simp [okOr]

@[simp] theorem post_lift {m : Call Empty L α} :
    Post (lift m : Fallible ε L α) Q R env s ↔ Call.Post m Q env s := by
  have hrun : (lift m : Fallible ε L α).run env s = match m.run env s with
    | .ok (a, s') => .ok (.ok a, s')
    | .error t => .error t := rfl
  rcases hm : m.run env s with t | ⟨a, s₁⟩ <;> rw [hm] at hrun
  · refine iff_of_true (post_of_trap hrun) fun a t h => ?_
    rw [hm] at h
    cases h
  · rw [post_of_ok hrun, Call.post_of_run hm]

end

/-! ## Steps -/

variable {Op : Type} {exec : Op → Fallible ε L α} {s s' : Ledger L} {c : Env × Op}

/-- One step: a call that does not trap.  After an error the ledger is the one the function has left,
    or the one from before. -/
def Steps (exec : Op → Fallible ε L α) (s : Ledger L) (c : Env × Op) (s' : Ledger L) : Prop :=
  (∃ r, (exec c.2).run c.1 s = .ok (r, s')) ∨ (∃ e s₁, (exec c.2).run c.1 s = .ok (.error e, s₁)) ∧ s' = s

/-- Calls of which no error is passed on. -/
theorem Steps.of_call (h : Call.Steps (fun op => (exec op).toCall) s c s') : Steps exec s c s' := Or.inl h

/-- A script of calls that do not trap is a run. -/
theorem run_of_play {script : List (Env × Op)}
    (h : Call.play (fun op => (exec op).toCall) s script = some s') :
    Run (Steps exec) s (Call.traceOf (fun op => (exec op).toCall) s script) s' :=
  (Call.run_of_play h).mono fun _ _ _ => Steps.of_call

end Fallible

end Soroban
