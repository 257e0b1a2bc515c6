/-
  Soroban contracts — calls that return.

  `Returns m Q env s` says that `m` does return from `s`, and that what it returns
  and leaves satisfies `Q`: what `Post` says, and that no check of `m` fails.  Like
  those for `Post`, the lemmas are equivalences, and `simp` evaluates a `do` block.
-/
import AuditTransparency.Soroban.Writes

namespace Soroban.Call

variable {E : Type} {L : Layout} {α β : Type} {env : Env} {s : Ledger L}

/-- `m` returns from `s`, and its result and the ledger it leaves satisfy `Q`. -/
def Returns (m : Call E L α) (Q : α → Ledger L → Prop) (env : Env) (s : Ledger L) : Prop :=
  ∃ a s', m.run env s = .ok (a, s') ∧ Q a s'

section
variable {Q : α → Ledger L → Prop}

theorem returns_of_run {m : Call E L α} {a : α} {s' : Ledger L} (h : m.run env s = .ok (a, s')) :
    Returns m Q env s ↔ Q a s' := by
  constructor
  · rintro ⟨b, t, hr, hq⟩
    rw [h] at hr
    cases hr
    exact hq
  · intro hq
    exact ⟨a, s', h, hq⟩

theorem not_returns_of_error {m : Call E L α} {e : Trap E} (h : m.run env s = .error e) :
    ¬Returns m Q env s := by
  rintro ⟨a, s', hr, -⟩
  rw [h] at hr
  cases hr

theorem Returns.mono {m : Call E L α} {P : α → Ledger L → Prop} (h : Returns m P env s)
    (hPQ : ∀ a s', P a s' → Q a s') : Returns m Q env s := by
  obtain ⟨a, s', hr, hp⟩ := h
  exact ⟨a, s', hr, hPQ a s' hp⟩

/-- **What a call that returns leaves** is what its postcondition says. -/
theorem Returns.post {m : Call E L α} {P : α → Ledger L → Prop} (h : Returns m P env s)
    (hpost : Post m Q env s) : Returns m (fun a s' => P a s' ∧ Q a s') env s := by
  obtain ⟨a, s', hr, hp⟩ := h
  exact ⟨a, s', hr, hp, hpost.of_run hr⟩

@[simp] theorem returns_pure {a : α} : Returns (pure a : Call E L α) Q env s ↔ Q a s :=
  returns_of_run rfl

@[simp] theorem returns_bind {m : Call E L β} {f : β → Call E L α} :
    Returns (m >>= f) Q env s ↔ Returns m (fun b s' => Returns (f b) Q env s') env s := by
  rcases hm : m.run env s with e | ⟨b, s'⟩
  · exact iff_of_false (not_returns_of_error (run_bind_error env s hm f)) (not_returns_of_error hm)
  · rw [returns_of_run hm]
    unfold Returns
    rw [run_bind_ok env s hm]

@[simp] theorem returns_ite {c : Prop} [Decidable c] {m n : Call E L α} :
    Returns (if c then m else n) Q env s ↔ (c → Returns m Q env s) ∧ (¬c → Returns n Q env s) := by
  split_ifs with h <;> simp [h]

@[simp] theorem returns_getEnv {R : Env → Ledger L → Prop} :
    Returns (getEnv : Call E L Env) R env s ↔ R env s := returns_of_run rfl

@[simp] theorem returns_rejectIf {c : Prop} [Decidable c] {e : E} {R : Unit → Ledger L → Prop} :
    Returns (rejectIf c e : Call E L Unit) R env s ↔ ¬c ∧ R () s := by
  by_cases hc : c
  · refine iff_of_false (not_returns_of_error (e := .contract e) ?_) fun h => h.1 hc
    rw [run_rejectIf, if_pos hc]
  · rw [returns_of_run (by rw [run_rejectIf, if_neg hc]), and_iff_right hc]

@[simp] theorem returns_requireAuth {a : Address} {R : Unit → Ledger L → Prop} :
    Returns (requireAuth a : Call E L Unit) R env s ↔ env.auth a = true ∧ R () s := by
  by_cases ha : env.auth a = true
  · rw [returns_of_run (by rw [run_requireAuth, if_pos ha]), and_iff_right ha]
  · refine iff_of_false (not_returns_of_error (e := .auth) ?_) fun h => ha h.1
    rw [run_requireAuth, if_neg ha]

@[simp] theorem returns_unwrap {o : Option α} :
    Returns (unwrap o : Call E L α) Q env s ↔ ∃ a, o = some a ∧ Q a s := by
  cases o with
  | none => exact iff_of_false (not_returns_of_error (e := .unwrap) rfl) (by simp)
  | some a => rw [returns_of_run (run_unwrap_some env s a)]; simp

@[simp] theorem returns_unwrapOr {o : Option α} {e : E} :
    Returns (unwrapOr o e : Call E L α) Q env s ↔ ∃ a, o = some a ∧ Q a s := by
  cases o with
  | none => exact iff_of_false (not_returns_of_error (e := .contract e) rfl) (by simp)
  | some a =>
    rw [returns_of_run (show (unwrapOr (some a) e : Call E L α).run env s = .ok (a, s) from rfl)]
    simp

@[simp] theorem returns_doIf {c : Prop} [Decidable c] {m : Call E L Unit} {R : Unit → Ledger L → Prop} :
    Returns (doIf c m) R env s ↔ (c → Returns m R env s) ∧ (¬c → R () s) := by
  unfold doIf; simp

@[simp] theorem returns_ifSome {o : Option β} {f : β → Call E L Unit} {R : Unit → Ledger L → Prop} :
    Returns (ifSome o f) R env s ↔
      (∀ b, o = some b → Returns (f b) R env s) ∧ (o = none → R () s) := by
  cases o <;> simp [ifSome]

@[simp] theorem returns_load {f : L.Field} {k : L.Key f} {R : Option (L.Val f) → Ledger L → Prop} :
    Returns (α := no_index (Option (L.Val f))) (load L f k : Call E L _) R env s ↔ R (s.inst f k) s :=
  returns_of_run rfl

@[simp] theorem returns_store {f : L.Field} {k : L.Key f} {v : L.Val f} {R : Unit → Ledger L → Prop} :
    Returns (store L f k v : Call E L _) R env s ↔ R () (s.put f k v) := returns_of_run rfl

@[simp] theorem returns_publish {n : L.Note} {R : Unit → Ledger L → Prop} :
    Returns (publish L n : Call E L _) R env s ↔ R () (s.publish n) := returns_of_run rfl

end

/-! ## Loops -/

/-- **Loop rule**: `for i in a..a + n` returns when every round does, from what the rounds before have left. -/
theorem returns_range' {f : α → ℕ → Call E L α} (I : ℕ → α → Ledger L → Prop) :
    ∀ (n a : ℕ) (x : α) (s : Ledger L), I 0 x s →
      (∀ j x s, j < n → I j x s → Returns (f x (a + j)) (I (j + 1)) env s) →
      Returns ((List.range' a n).foldlM f x) (I n) env s
  | 0, _, _, _, h, _ => by simpa using h
  | n + 1, a, x, s, h, hstep => by
    rw [List.range'_succ, List.foldlM_cons, returns_bind]
    refine (hstep 0 x s (by omega) h).mono fun x' s' h' => ?_
    refine returns_range' (fun j => I (j + 1)) n (a + 1) x' s' h' fun j y t hj hI => ?_
    have hround := hstep (j + 1) y t (by omega) hI
    rwa [show a + (j + 1) = a + 1 + j by omega] at hround

/-- A loop returns exactly when no round fails, where the rounds before leave what decides that. -/
theorem returns_range'_iff {f : α → ℕ → Call E L α} {C : ℕ → Prop} (I : ℕ → α → Ledger L → Prop) :
    ∀ (n a : ℕ) (x : α) (s : Ledger L), I 0 x s →
      (∀ j x s, j < n → I j x s → Post (f x (a + j)) (I (j + 1)) env s) →
      (∀ j x s, j < n → I j x s → (Returns (f x (a + j)) (fun _ _ => True) env s ↔ C (a + j))) →
      (Returns ((List.range' a n).foldlM f x) (I n) env s ↔ ∀ i, a ≤ i → i < a + n → C i)
  | 0, a, _, _, h, _, _ => by
    refine iff_of_true (by simpa using h) fun i hi hlt => ?_
    omega
  | n + 1, a, x, s, h, hpost, hround => by
    have hfirst := hround 0 x s (by omega) h
    have ih : ∀ y t, I 1 y t → (Returns ((List.range' (a + 1) n).foldlM f y) (I (n + 1)) env t ↔
        ∀ i, a + 1 ≤ i → i < a + 1 + n → C i) := by
      intro y t hI
      refine returns_range'_iff (fun j => I (j + 1)) n (a + 1) y t hI ?_ ?_
      · intro j z u hj hI'
        have hnext := hpost (j + 1) z u (by omega) hI'
        rwa [show a + (j + 1) = a + 1 + j by omega] at hnext
      · intro j z u hj hI'
        have hnext := hround (j + 1) z u (by omega) hI'
        rwa [show a + (j + 1) = a + 1 + j by omega] at hnext
    rw [List.range'_succ, List.foldlM_cons, returns_bind]
    constructor
    · intro hret i hi hlt
      have hall := hret.post (hpost 0 x s (by omega) h)
      obtain ⟨y, t, -, htail, hI⟩ := hall
      by_cases hia : i = a
      · subst hia
        exact hfirst.1 (hret.mono fun _ _ _ => trivial)
      · exact (ih y t hI).1 htail i (by omega) (by omega)
    · intro hC
      have hhead := (hfirst.2 (hC a le_rfl (by omega))).post (hpost 0 x s (by omega) h)
      refine hhead.mono fun y t hI => (ih y t hI.2).2 fun i hi hlt => hC i (by omega) (by omega)

/-- `for i in 0..n` -/
theorem returns_range {f : α → ℕ → Call E L α} (I : ℕ → α → Ledger L → Prop) {n : ℕ} {x : α}
    (h : I 0 x s) (hstep : ∀ j x s, j < n → I j x s → Returns (f x j) (I (j + 1)) env s) :
    Returns ((List.range n).foldlM f x) (I n) env s := by
  rw [List.range_eq_range']
  refine returns_range' I n 0 x s h fun j y t hj hI => ?_
  rw [Nat.zero_add]
  exact hstep j y t hj hI

end Soroban.Call
