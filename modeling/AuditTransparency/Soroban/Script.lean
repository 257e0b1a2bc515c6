/-
  Soroban contracts — a contract as a transition system.

  A contract is given by what its entry points do (`exec`).  A step is an
  invocation that succeeds: one that fails leaves the ledger as it was.

  `play` computes the ledger after a list of invocations, and `run_of_play` makes
  a run of it.

  Where the failures matter too, a step is a call that is tried (`Tries`), and any
  list of calls is a run (`run_tries`).
-/
import AuditTransparency.Soroban.Call
import AuditTransparency.Soroban.Run

namespace Soroban.Call

variable {E : Type} {L : Layout} {Op R : Type}

/-- One step: an invocation that succeeds. -/
def Steps (exec : Op → Call E L R) (s : Ledger L) (c : Env × Op) (s' : Ledger L) : Prop :=
  ∃ r, (exec c.2).run c.1 s = .ok (r, s')

/-- The ledger after a list of invocations; `none` when one of them fails. -/
def play (exec : Op → Call E L R) (s : Ledger L) : List (Env × Op) → Option (Ledger L)
  | [] => some s
  | c :: rest =>
    match (exec c.2).run c.1 s with
    | .ok (_, s') => play exec s' rest
    | .error _ => none

/-- The trace of a list of invocations, up to the first that fails. -/
def traceOf (exec : Op → Call E L R) (s : Ledger L) : List (Env × Op) → List (Ledger L × (Env × Op))
  | [] => []
  | c :: rest =>
    (s, c) :: match (exec c.2).run c.1 s with
      | .ok (_, s') => traceOf exec s' rest
      | .error _ => []

variable {exec : Op → Call E L R} {s s' : Ledger L}

/-- A step leads to one ledger. -/
theorem Steps.unique {c : Env × Op} {s'' : Ledger L} (h : Steps exec s c s') (h' : Steps exec s c s'') :
    s' = s'' := by
  obtain ⟨r, h⟩ := h
  obtain ⟨r', h'⟩ := h'
  rw [h] at h'
  cases h'
  rfl

/-- The first call of a script that succeeds, and the rest. -/
theorem play_cons {c : Env × Op} {rest : List (Env × Op)} (h : play exec s (c :: rest) = some s') :
    ∃ r s₁, (exec c.2).run c.1 s = .ok (r, s₁) ∧ play exec s₁ rest = some s' := by
  rw [play] at h
  rcases hr : (exec c.2).run c.1 s with e | ⟨r, s₁⟩
  · rw [hr] at h; cases h
  · rw [hr] at h; exact ⟨r, s₁, rfl, h⟩

theorem traceOf_cons {c : Env × Op} {r : R} {s₁ : Ledger L} (hr : (exec c.2).run c.1 s = .ok (r, s₁))
    (rest : List (Env × Op)) : traceOf exec s (c :: rest) = (s, c) :: traceOf exec s₁ rest := by
  rw [traceOf, hr]

/-- A script that succeeds is a run. -/
theorem run_of_play {script : List (Env × Op)} (h : play exec s script = some s') :
    Run (Steps exec) s (traceOf exec s script) s' := by
  induction script generalizing s with
  | nil =>
    obtain rfl : s = s' := Option.some.inj h
    exact .init
  | cons c rest ih =>
    obtain ⟨r, s₁, hr, hrest⟩ := play_cons h
    rw [traceOf_cons hr]
    exact Run.append (.snoc .init ⟨r, hr⟩) (ih hrest)

/-- The calls of its trace are those of the script. -/
theorem map_snd_traceOf {script : List (Env × Op)} (h : play exec s script = some s') :
    (traceOf exec s script).map Prod.snd = script := by
  induction script generalizing s with
  | nil => rfl
  | cons c rest ih =>
    obtain ⟨r, s₁, hr, hrest⟩ := play_cons h
    rw [traceOf_cons hr, List.map_cons, ih hrest]

/-- The last call of a script. -/
theorem traceOf_concat {script : List (Env × Op)} (h : play exec s script = some s') (c : Env × Op) :
    traceOf exec s (script ++ [c]) = traceOf exec s script ++ [(s', c)] := by
  induction script generalizing s with
  | nil =>
    obtain rfl : s = s' := Option.some.inj h
    have hlast : traceOf exec s [c] = [(s, c)] := by
      rcases hr : (exec c.2).run c.1 s with e | ⟨r, s₁⟩
      · rw [traceOf, hr]
      · rw [traceOf_cons hr, traceOf]
    rw [List.nil_append, hlast, traceOf, List.nil_append]
  | cons c₁ rest ih =>
    obtain ⟨r, s₁, hr, hrest⟩ := play_cons h
    rw [List.cons_append, traceOf_cons hr, traceOf_cons hr, ih hrest, List.cons_append]

/-! ## Calls that may fail -/

section
variable (exec)

/-- What a call returns, or how it fails. -/
def outcome (s : Ledger L) (c : Env × Op) : Except (Trap E) R := ((exec c.2).run c.1 s).map Prod.fst

/-- The ledger after a call was tried. -/
def attempted (s : Ledger L) (c : Env × Op) : Ledger L :=
  match (exec c.2).run c.1 s with
  | .ok (_, s') => s'
  | .error _ => s

/-- The ledger after a list of calls, some of which may fail. -/
def attempt (s : Ledger L) (l : List (Env × Op)) : Ledger L := l.foldl (attempted exec) s

/-- One step: a call, whether it succeeds or not. -/
def Tries (s : Ledger L) (c : Env × Op) (s' : Ledger L) : Prop := s' = attempted exec s c

/-- The trace of a list of calls. -/
def triesOf (s : Ledger L) : List (Env × Op) → List (Ledger L × (Env × Op))
  | [] => []
  | c :: rest => (s, c) :: triesOf (attempted exec s c) rest

end

theorem attempted_ok {c : Env × Op} {r : R} (h : (exec c.2).run c.1 s = .ok (r, s')) :
    attempted exec s c = s' := by
  rw [attempted, h]

theorem attempted_error {c : Env × Op} {e : Trap E} (h : (exec c.2).run c.1 s = .error e) :
    attempted exec s c = s := by
  rw [attempted, h]

/-- What was refused has changed nothing. -/
theorem attempted_refused {c : Env × Op} {e : Trap E} (h : outcome exec s c = .error e) :
    attempted exec s c = s := by
  rw [outcome] at h
  rcases hr : (exec c.2).run c.1 s with e' | ⟨r, s'⟩
  · exact attempted_error hr
  · rw [hr] at h
    cases h

/-- A call that was tried has succeeded, or changed nothing. -/
theorem Tries.ok_or_error {c : Env × Op} (h : Tries exec s c s') :
    (∃ r, (exec c.2).run c.1 s = .ok (r, s') ∧ outcome exec s c = .ok r) ∨
      ∃ e, (exec c.2).run c.1 s = .error e ∧ outcome exec s c = .error e ∧ s' = s := by
  rw [Tries, attempted] at h
  rcases hr : (exec c.2).run c.1 s with e | ⟨r, s₁⟩ <;> rw [hr] at h
  · exact .inr ⟨e, rfl, by rw [outcome, hr]; rfl, h⟩
  · obtain rfl : s' = s₁ := h
    exact .inl ⟨r, rfl, by rw [outcome, hr]; rfl⟩

/-- Any list of calls is a run. -/
theorem run_tries {calls : List (Env × Op)} :
    Run (Tries exec) s (triesOf exec s calls) (attempt exec s calls) := by
  induction calls generalizing s with
  | nil => exact .init
  | cons c rest ih => exact Run.append (.snoc .init rfl) ih

theorem map_snd_triesOf {calls : List (Env × Op)} : (triesOf exec s calls).map Prod.snd = calls := by
  induction calls generalizing s with
  | nil => rfl
  | cons c rest ih => rw [triesOf, List.map_cons, ih]

/-! ## Ledger time -/

/-- The ledger time of the calls of a trace does not run backwards. -/
def Timely (tr : List (Ledger L × (Env × Op))) : Prop :=
  tr.Pairwise fun p q => p.2.1.timestamp ≤ q.2.1.timestamp

instance (tr : List (Ledger L × (Env × Op))) : Decidable (Timely tr) :=
  inferInstanceAs (Decidable (tr.Pairwise fun p q => p.2.1.timestamp ≤ q.2.1.timestamp))

end Soroban.Call
