/-
  Soroban contracts — how a call can fail.

  `Raises m e env s` says that `m` fails from `s` with the error `e` of the
  contract.  Like those for `Post`, the lemmas are equivalences: `simp` evaluates
  a `do` block, and the checks with another error disappear.
-/
import AuditTransparency.Soroban.Writes

namespace Soroban.Call

variable {E : Type} {L : Layout} {α β : Type} {env : Env} {s : Ledger L} {e : E}

/-- `m` fails from `s` with the error `e`. -/
def Raises (m : Call E L α) (e : E) (env : Env) (s : Ledger L) : Prop :=
  m.run env s = .error (.contract e)

theorem not_raises_of_run {m : Call E L α} {a : α} {s' : Ledger L} (h : m.run env s = .ok (a, s')) :
    ¬Raises m e env s := by
  intro hr
  rw [Raises, h] at hr
  cases hr

@[simp] theorem raises_bind {m : Call E L β} {f : β → Call E L α} :
    Raises (m >>= f) e env s ↔
      Raises m e env s ∨ ∃ b s', m.run env s = .ok (b, s') ∧ Raises (f b) e env s' := by
  unfold Raises
  rcases hm : m.run env s with t | ⟨b, s'⟩
  · rw [run_bind_error env s hm]; simp
  · rw [run_bind_ok env s hm]
    refine ⟨fun h => Or.inr ⟨b, s', rfl, h⟩, fun h => ?_⟩
    obtain h | ⟨b', t', he, h⟩ := h
    · cases h
    · cases he; exact h

/-- After a call that only reads, the rest runs from the same ledger. -/
theorem not_raises_bind_reads {m : Call E L β} [hm : Reads m] {f : β → Call E L α}
    (hne : ¬Raises m e env s) (h : ∀ b, m.run env s = .ok (b, s) → ¬Raises (f b) e env s) :
    ¬Raises (m >>= f) e env s := by
  rw [raises_bind]
  rintro (hr | ⟨b, s', hb, hr⟩)
  · exact hne hr
  · obtain rfl := hm.of_run hb
    exact h b hb hr

@[simp] theorem raises_pure {a : α} : ¬Raises (pure a : Call E L α) e env s := not_raises_of_run rfl

@[simp] theorem raises_getEnv : ¬Raises (getEnv : Call E L Env) e env s := not_raises_of_run rfl

@[simp] theorem raises_rejectIf {c : Prop} [Decidable c] {e' : E} :
    Raises (rejectIf c e' : Call E L Unit) e env s ↔ c ∧ e' = e := by
  rw [Raises, run_rejectIf]
  split_ifs with hc
  · simp [hc]
  · simp [hc]

@[simp] theorem raises_requireAuth {a : Address} :
    ¬Raises (requireAuth a : Call E L Unit) e env s := by
  rw [Raises, run_requireAuth]; split_ifs <;> simp

@[simp] theorem raises_unwrap {o : Option α} : ¬Raises (unwrap o : Call E L α) e env s := by
  rcases o with _ | a <;> simp [Raises, run, unwrap]

@[simp] theorem raises_addChecked {w a b : ℕ} :
    ¬Raises (addChecked w a b : Call E L ℕ) e env s := by
  simp only [Raises, run, addChecked]; split_ifs <;> simp

@[simp] theorem raises_ite {c : Prop} [Decidable c] {m n : Call E L α} :
    Raises (if c then m else n) e env s ↔ (c ∧ Raises m e env s) ∨ (¬c ∧ Raises n e env s) := by
  split_ifs with hc <;> simp [hc]

@[simp] theorem raises_doIf {c : Prop} [Decidable c] {m : Call E L Unit} :
    Raises (doIf c m) e env s ↔ c ∧ Raises m e env s := by
  unfold doIf; simp

@[simp] theorem raises_onSome {o : Option β} {f : β → Call E L α} {m : Call E L α} :
    Raises (onSome o f m) e env s ↔
      (∃ b, o = some b ∧ Raises (f b) e env s) ∨ (o = none ∧ Raises m e env s) := by
  rcases o with _ | b <;> simp [onSome]

@[simp] theorem raises_ifSome {o : Option β} {f : β → Call E L Unit} :
    Raises (ifSome o f) e env s ↔ ∃ b, o = some b ∧ Raises (f b) e env s := by
  rcases o with _ | b <;> simp [ifSome]

@[simp] theorem raises_load {f : L.Field} {k : L.Key f} :
    ¬Raises (α := no_index (Option (L.Val f))) (load L f k : Call E L _) e env s :=
  not_raises_of_run rfl

@[simp] theorem raises_store {f : L.Field} {k : L.Key f} {v : L.Val f} :
    ¬Raises (store L f k v : Call E L _) e env s := not_raises_of_run rfl

@[simp] theorem raises_storePers {f : L.Field} {k : L.Key f} {v : L.Val f} :
    ¬Raises (storePers L f k v : Call E L _) e env s := not_raises_of_run rfl

@[simp] theorem raises_loadTemp {f : L.Field} {k : L.Key f} :
    ¬Raises (α := no_index (Option (L.Val f))) (loadTemp L f k : Call E L _) e env s :=
  not_raises_of_run rfl

@[simp] theorem raises_storeTemp {f : L.Field} {k : L.Key f} {v : L.Val f} :
    ¬Raises (storeTemp L f k v : Call E L _) e env s := not_raises_of_run rfl

@[simp] theorem raises_clearTemp {f : L.Field} {k : L.Key f} :
    ¬Raises (clearTemp L f k : Call E L _) e env s := not_raises_of_run rfl

@[simp] theorem raises_publish {n : L.Note} : ¬Raises (publish L n : Call E L _) e env s :=
  not_raises_of_run rfl

end Soroban.Call
