/-
  Soroban contracts — failures that cannot happen.

  `Avoids m T env s` says that `m` does not fail from `s` with one of the traps
  `T`.  Like those for `Post`, the lemmas are equivalences: `simp` evaluates a
  `do` block and leaves what keeps every operation of it away from `T`.
-/
import AuditTransparency.Soroban.Writes

namespace Soroban

/-- The arithmetic operation has no result, whatever the width of its type. -/
def Trap.Undefined {E : Type} : Trap E → Prop
  | .underflow | .divisionByZero => True
  | _ => False

namespace Call

variable {E : Type} {L : Layout} {α β : Type} {T : Trap E → Prop} {env : Env} {s : Ledger L}

/-- `m` does not fail from `s` with a trap in `T`. -/
def Avoids (m : Call E L α) (T : Trap E → Prop) (env : Env) (s : Ledger L) : Prop :=
  ∀ e, m.run env s = .error e → ¬T e

theorem avoids_of_run {m : Call E L α} {a : α} {s' : Ledger L} (h : m.run env s = .ok (a, s')) :
    Avoids m T env s := by
  intro e he
  rw [h] at he
  cases he

theorem avoids_of_error {m : Call E L α} {e : Trap E} (h : m.run env s = .error e) :
    Avoids m T env s ↔ ¬T e := by
  constructor
  · intro ha
    exact ha e h
  · intro ht e' he
    rw [h] at he
    cases he
    exact ht

@[simp] theorem post_true {m : Call E L α} : Post m (fun _ _ => True) env s ↔ True :=
  iff_true_intro fun _ _ _ => trivial

@[simp] theorem avoids_pure {a : α} : Avoids (pure a : Call E L α) T env s ↔ True :=
  iff_true_intro (avoids_of_run rfl)

@[simp] theorem avoids_trap {e : Trap E} : Avoids (trap e : Call E L α) T env s ↔ ¬T e :=
  avoids_of_error rfl

@[simp] theorem avoids_bind {m : Call E L β} {f : β → Call E L α} :
    Avoids (m >>= f) T env s ↔
      Avoids m T env s ∧ Post m (fun b s' => Avoids (f b) T env s') env s := by
  rcases hm : m.run env s with e | ⟨b, s'⟩
  · rw [avoids_of_error hm, avoids_of_error (run_bind_error env s hm f)]
    refine (and_iff_left fun b s' hr => ?_).symm
    rw [hm] at hr
    cases hr
  · rw [iff_true_intro (avoids_of_run (T := T) hm), true_and, post_of_run hm]
    simp only [Avoids, run_bind_ok env s hm]

/-- A call before a returned value. -/
theorem avoids_map {m : Call E L β} {g : β → α} :
    Avoids (m >>= fun b => pure (g b)) T env s ↔ Avoids m T env s := by
  rw [avoids_bind]
  simp only [avoids_pure, post_true, and_true]

@[simp] theorem avoids_ite {c : Prop} [Decidable c] {m n : Call E L α} :
    Avoids (if c then m else n) T env s ↔ (c → Avoids m T env s) ∧ (¬c → Avoids n T env s) := by
  split_ifs with h <;> simp [h]

@[simp] theorem avoids_getEnv : Avoids (getEnv : Call E L Env) T env s ↔ True :=
  iff_true_intro (avoids_of_run rfl)

@[simp] theorem avoids_rejectIf {c : Prop} [Decidable c] {e : E} :
    Avoids (rejectIf c e : Call E L Unit) T env s ↔ (c → ¬T (.contract e)) := by
  unfold rejectIf; split_ifs with h <;> simp [h]

@[simp] theorem avoids_requireAuth {a : Address} :
    Avoids (requireAuth a : Call E L Unit) T env s ↔ (env.auth a = false → ¬T .auth) := by
  rcases h : env.auth a with _ | _
  · rw [avoids_of_error (e := .auth) (by rw [run_requireAuth, h]; rfl)]; simp
  · exact iff_of_true (avoids_of_run (by rw [run_requireAuth, h]; rfl)) (by simp)

@[simp] theorem avoids_unwrapOr {o : Option α} {e : E} :
    Avoids (unwrapOr o e : Call E L α) T env s ↔ (o = none → ¬T (.contract e)) := by
  cases o with
  | none => rw [avoids_of_error (e := .contract e) rfl]; simp
  | some a => exact iff_of_true (avoids_of_run rfl) (by simp)

@[simp] theorem avoids_addChecked {w a b : ℕ} :
    Avoids (addChecked w a b : Call E L ℕ) T env s ↔ (2 ^ w ≤ a + b → ¬T .overflow) := by
  by_cases h : a + b < 2 ^ w
  · exact iff_of_true (avoids_of_run (run_addChecked env s h)) fun hle => absurd h (Nat.not_lt.2 hle)
  · have hrun : (addChecked w a b : Call E L ℕ).run env s = .error .overflow := if_neg h
    rw [avoids_of_error hrun]; simp [Nat.not_lt.1 h]

@[simp] theorem avoids_mulChecked {w a b : ℕ} :
    Avoids (mulChecked w a b : Call E L ℕ) T env s ↔ (2 ^ w ≤ a * b → ¬T .overflow) := by
  by_cases h : a * b < 2 ^ w
  · exact iff_of_true (avoids_of_run (run_mulChecked env s h)) fun hle => absurd h (Nat.not_lt.2 hle)
  · have hrun : (mulChecked w a b : Call E L ℕ).run env s = .error .overflow := if_neg h
    rw [avoids_of_error hrun]; simp [Nat.not_lt.1 h]

@[simp] theorem avoids_subChecked {a b : ℕ} :
    Avoids (subChecked a b : Call E L ℕ) T env s ↔ (a < b → ¬T .underflow) := by
  by_cases h : b ≤ a
  · exact iff_of_true (avoids_of_run (run_subChecked env s h)) fun hlt => absurd h (Nat.not_le.2 hlt)
  · have hrun : (subChecked a b : Call E L ℕ).run env s = .error .underflow := if_neg h
    rw [avoids_of_error hrun]; simp [Nat.not_le.1 h]

@[simp] theorem avoids_divChecked {a b : ℕ} :
    Avoids (divChecked a b : Call E L ℕ) T env s ↔ (b = 0 → ¬T .divisionByZero) := by
  by_cases h : b = 0
  · have hrun : (divChecked a b : Call E L ℕ).run env s = .error .divisionByZero := if_pos h
    rw [avoids_of_error hrun]; simp [h]
  · exact iff_of_true (avoids_of_run (run_divChecked env s h)) fun h' => absurd h' h

@[simp] theorem avoids_ifSome {o : Option β} {f : β → Call E L Unit} :
    Avoids (ifSome o f) T env s ↔ ∀ b, o = some b → Avoids (f b) T env s := by
  cases o <;> simp [ifSome]

@[simp] theorem avoids_load {f : L.Field} {k : L.Key f} :
    Avoids (α := no_index (Option (L.Val f))) (load L f k : Call E L _) T env s ↔ True :=
  iff_true_intro (avoids_of_run rfl)

@[simp] theorem avoids_store {f : L.Field} {k : L.Key f} {v : L.Val f} :
    Avoids (store L f k v : Call E L _) T env s ↔ True := iff_true_intro (avoids_of_run rfl)

end Call

end Soroban
