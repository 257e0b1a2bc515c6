/-
  Soroban contracts — keys with an owner.

  A contract that serves several parties writes the party into its keys.
  `Ownership` reads it back: the owner of a key, or `none` for the keys all
  parties share.  A call is `Local` to `t` when what it returns and what it
  leaves under the keys of `t` depend on the keys of `t` only, and it leaves the
  keys of every other owner alone; it may write the shared keys.

  Like `Writes`, `Local` is found by instance search along a `do` block.  Where
  every operation is local to the owner it names, the run of one owner can be
  read off the calls that name it, whatever the others do:

  * `attempt_sameFor`: the entries of an owner after a list of calls are those
    after the calls that name it;
  * `outcomes_filter`: so are the outcomes.
-/
import AuditTransparency.Soroban.Writes
import AuditTransparency.Soroban.Script

namespace Soroban

variable {E : Type} {L : Layout} {T α β : Type}

/-- The owner of a key, `none` where the key is shared. -/
abbrev Ownership (L : Layout) (T : Type) := (f : L.Field) → L.Key f → Option T

namespace Ledger
variable {owner : Ownership L T} {t b : T} {s s' s'' : Ledger L}

/-- The instance entries of `t` are the same. -/
def SameFor (owner : Ownership L T) (t : T) (s s' : Ledger L) : Prop :=
  ∀ f k, owner f k = some t → s.inst f k = s'.inst f k

theorem SameFor.refl (s : Ledger L) : s.SameFor owner t s := fun _ _ _ => rfl

theorem SameFor.symm (h : s.SameFor owner t s') : s'.SameFor owner t s :=
  fun f k hk => (h f k hk).symm

theorem SameFor.trans (h : s.SameFor owner t s') (h' : s'.SameFor owner t s'') :
    s.SameFor owner t s'' := fun f k hk => (h f k hk).trans (h' f k hk)

/-- The same write on both sides. -/
theorem SameFor.put (h : s.SameFor owner t s') (f : L.Field) (k : L.Key f) (v : L.Val f) :
    (s.put f k v).SameFor owner t (s'.put f k v) := by
  intro g j hj
  rw [put_inst, put_inst]
  by_cases hg : g = f
  · subst hg
    rw [Store.set_same, Store.set_same, Function.update_apply, Function.update_apply, h g j hj]
  · rw [Store.set_ne _ _ _ hg, Store.set_ne _ _ _ hg, h g j hj]

theorem SameFor.del (h : s.SameFor owner t s') (f : L.Field) (k : L.Key f) :
    (s.del f k).SameFor owner t (s'.del f k) := by
  intro g j hj
  rw [del_inst, del_inst]
  by_cases hg : g = f
  · subst hg
    rw [Store.remove_same, Store.remove_same, Function.update_apply, Function.update_apply, h g j hj]
  · rw [Store.remove_ne _ _ hg, Store.remove_ne _ _ hg, h g j hj]

/-- A write under a key that is not owned by `t`. -/
theorem sameFor_put {f : L.Field} {k : L.Key f} {v : L.Val f} (h : owner f k ≠ some t) :
    s.SameFor owner t (s.put f k v) := by
  intro g j hj
  rw [put_inst]
  by_cases hg : g = f
  · subst hg
    rw [Store.set_same, Function.update_of_ne (by rintro rfl; exact h hj)]
  · rw [Store.set_ne _ _ _ hg]

theorem sameFor_del {f : L.Field} {k : L.Key f} (h : owner f k ≠ some t) :
    s.SameFor owner t (s.del f k) := by
  intro g j hj
  rw [del_inst]
  by_cases hg : g = f
  · subst hg
    rw [Store.remove_same, Function.update_of_ne (by rintro rfl; exact h hj)]
  · rw [Store.remove_ne _ _ hg]

end Ledger

namespace Call

/-- The same value, or the same trap, and the same entries of `t`. -/
def Alike (owner : Ownership L T) (t : T) :
    Except (Trap E) (α × Ledger L) → Except (Trap E) (α × Ledger L) → Prop
  | .ok (a, s), .ok (a', s') => a = a' ∧ s.SameFor owner t s'
  | .error e, .error e' => e = e'
  | _, _ => False

theorem Alike.map_fst {owner : Ownership L T} {t : T} {r r' : Except (Trap E) (α × Ledger L)}
    (h : Alike owner t r r') : r.map Prod.fst = r'.map Prod.fst := by
  rcases r with e | ⟨a, s⟩ <;> rcases r' with e' | ⟨a', s'⟩
  · exact congrArg Except.error h
  · cases h
  · cases h
  · exact congrArg Except.ok h.1

/-- `m` sees and changes the entries of `t`, and writes no entry of another owner. -/
class Local (owner : Ownership L T) (t : T) (m : Call E L α) : Prop where
  alike : ∀ env s s', s.SameFor owner t s' → Alike owner t (m.run env s) (m.run env s')
  frame : ∀ env s, Post m (fun _ s' => ∀ b, b ≠ t → s.SameFor owner b s') env s

/-- The key is owned by `t`, found by instance search. -/
class Owned (owner : Ownership L T) (t : T) (f : L.Field) (k : L.Key f) : Prop where
  eq : owner f k = some t

section
variable {owner : Ownership L T} {t : T}

/-- A call that does not look at the ledger, and leaves it as it is. -/
theorem local_of_const {m : Call E L α} (h : ∀ env, (∃ a, ∀ s, m.run env s = .ok (a, s)) ∨
    ∃ e, ∀ s, m.run env s = .error e) : Local owner t m where
  alike env s s' hs := by
    rcases h env with ⟨a, ha⟩ | ⟨e, he⟩
    · rw [ha, ha]; exact ⟨rfl, hs⟩
    · rw [he, he]; exact rfl
  frame env s := by
    rcases h env with ⟨a, ha⟩ | ⟨e, he⟩
    · exact (post_of_run (ha s)).2 fun _ _ => Ledger.SameFor.refl s
    · intro a s' hr
      rw [he] at hr
      cases hr

instance (a : α) : Local owner t (pure a : Call E L α) := local_of_const fun _ => .inl ⟨a, fun _ => rfl⟩
instance (e : Trap E) : Local owner t (trap e : Call E L α) := local_of_const fun _ => .inr ⟨e, fun _ => rfl⟩
instance : Local owner t (getEnv : Call E L Env) := local_of_const fun env => .inl ⟨env, fun _ => rfl⟩

instance (c : Prop) [Decidable c] (e : E) : Local owner t (rejectIf c e : Call E L Unit) := by
  unfold rejectIf; split_ifs <;> infer_instance

instance (a : Address) : Local owner t (requireAuth a : Call E L Unit) := by
  refine local_of_const fun env => ?_
  by_cases h : env.auth a = true
  · exact .inl ⟨(), fun s => by rw [run_requireAuth, if_pos h]⟩
  · exact .inr ⟨.auth, fun s => by rw [run_requireAuth, if_neg h]⟩

instance (o : Option α) (e : E) : Local owner t (unwrapOr o e : Call E L α) := by
  refine local_of_const fun env => ?_
  cases o with
  | none => exact .inr ⟨.contract e, fun _ => rfl⟩
  | some a => exact .inl ⟨a, fun _ => rfl⟩

instance (w a b : ℕ) : Local owner t (addChecked w a b : Call E L ℕ) := by
  refine local_of_const fun env => ?_
  by_cases h : a + b < 2 ^ w
  · exact .inl ⟨a + b, fun s => run_addChecked env s h⟩
  · exact .inr ⟨.overflow, fun s => by rw [run, addChecked, if_neg h]⟩

instance (w a b : ℕ) : Local owner t (mulChecked w a b : Call E L ℕ) := by
  refine local_of_const fun env => ?_
  by_cases h : a * b < 2 ^ w
  · exact .inl ⟨a * b, fun s => run_mulChecked env s h⟩
  · exact .inr ⟨.overflow, fun s => by rw [run, mulChecked, if_neg h]⟩

-- the type of a read depends on the key, so it must not index the instance
instance (f : L.Field) (k : L.Key f) [h : Owned owner t f k] :
    Local (α := no_index (Option (L.Val f))) owner t (load L f k : Call E L _) where
  alike _ _ _ hs := ⟨hs f k h.eq, hs⟩
  frame _ s := post_load.2 fun _ _ => Ledger.SameFor.refl s

/-- The key of `t` is not owned by `b`. -/
theorem Owned.ne {f : L.Field} {k : L.Key f} (h : Owned owner t f k) {b : T} (hb : b ≠ t) :
    owner f k ≠ some b := by
  rw [h.eq]
  exact fun e => hb (Option.some.inj e).symm

instance (f : L.Field) (k : L.Key f) (v : L.Val f) [h : Owned owner t f k] :
    Local owner t (store L f k v : Call E L _) where
  alike _ _ _ hs := ⟨rfl, hs.put f k v⟩
  frame _ _ := post_store.2 fun _ hb => Ledger.sameFor_put (h.ne hb)

instance (f : L.Field) (k : L.Key f) [h : Owned owner t f k] :
    Local owner t (clear L f k : Call E L _) where
  alike _ _ _ hs := ⟨rfl, hs.del f k⟩
  frame _ _ := post_clear.2 fun _ hb => Ledger.sameFor_del (h.ne hb)

instance (n : L.Note) : Local owner t (publish L n : Call E L _) where
  alike _ _ _ hs := ⟨rfl, hs⟩
  frame _ s := post_publish.2 fun _ _ => Ledger.SameFor.refl s

theorem Local.bind {m : Call E L β} {f : β → Call E L α} (hm : Local owner t m)
    (hf : ∀ b, Local owner t (f b)) : Local owner t (m >>= f) where
  alike env s s' hs := by
    have h := hm.alike env s s' hs
    rcases hr : m.run env s with e | ⟨x, s₁⟩ <;> rcases hr' : m.run env s' with e' | ⟨y, s₂⟩ <;>
      rw [hr, hr'] at h
    · rw [run_bind_error env s hr, run_bind_error env s' hr']; exact h
    · cases h
    · cases h
    · obtain ⟨rfl, h₁⟩ := h
      rw [run_bind_ok env s hr, run_bind_ok env s' hr']
      exact (hf x).alike env s₁ s₂ h₁
  frame env s := post_bind.2 <| (hm.frame env s).mono fun x s₁ h₁ =>
    ((hf x).frame env s₁).mono fun _ _ h₂ b hb => (h₁ b hb).trans (h₂ b hb)

instance (m : Call E L β) (f : β → Call E L α) [hm : Local owner t m] [hf : ∀ b, Local owner t (f b)] :
    Local owner t (m >>= f) := hm.bind hf

instance (c : Prop) [Decidable c] (m n : Call E L α) [Local owner t m] [Local owner t n] :
    Local owner t (if c then m else n) := by
  split_ifs <;> infer_instance

instance (c : Prop) [Decidable c] (m : Call E L Unit) [Local owner t m] : Local owner t (doIf c m) :=
  inferInstanceAs (Local owner t (if c then m else pure ()))

instance (o : Option β) (f : β → Call E L Unit) [hf : ∀ b, Local owner t (f b)] :
    Local owner t (ifSome o f) := by
  cases o with
  | none => exact inferInstanceAs (Local owner t (pure () : Call E L Unit))
  | some b => exact hf b

end

/-! ## Lists of calls -/

section
variable {Op R : Type} (exec : Op → Call E L R)

/-- The calls of a list, each with its outcome. -/
def outcomes (s : Ledger L) : List (Env × Op) → List ((Env × Op) × Except (Trap E) R)
  | [] => []
  | c :: l => (c, outcome exec s c) :: outcomes (attempted exec s c) l

variable {owner : Ownership L T} (names : Op → T) [hl : ∀ op, Local owner (names op) (exec op)]

theorem attempted_sameFor {c : Env × Op} {s s' : Ledger L} (h : s.SameFor owner (names c.2) s') :
    outcome exec s c = outcome exec s' c ∧
      (attempted exec s c).SameFor owner (names c.2) (attempted exec s' c) := by
  have ha := (hl c.2).alike c.1 s s' h
  refine ⟨ha.map_fst, ?_⟩
  rw [attempted, attempted]
  rcases hr : (exec c.2).run c.1 s with e | ⟨x, s₁⟩ <;>
    rcases hr' : (exec c.2).run c.1 s' with e' | ⟨y, s₂⟩ <;> rw [hr, hr'] at ha
  · exact h
  · cases ha
  · cases ha
  · exact ha.2

/-- A call that names another owner. -/
theorem attempted_other {c : Env × Op} {b : T} (hb : b ≠ names c.2) (s : Ledger L) :
    s.SameFor owner b (attempted exec s c) := by
  rw [attempted]
  rcases hr : (exec c.2).run c.1 s with e | ⟨x, s₁⟩
  · exact Ledger.SameFor.refl s
  · exact (hl c.2).frame c.1 s x s₁ hr b hb

variable [DecidableEq T]

/-- **The entries of an owner** after a list of calls depend on the calls that name it. -/
theorem attempt_sameFor {b : T} (l : List (Env × Op)) :
    ∀ {s s' : Ledger L}, s.SameFor owner b s' →
      (attempt exec s l).SameFor owner b (attempt exec s' (l.filter (names ·.2 = b))) := by
  induction l with
  | nil => exact id
  | cons c l ih =>
    intro s s' h
    by_cases hc : names c.2 = b
    · subst hc
      rw [List.filter_cons_of_pos (by simp)]
      exact ih (attempted_sameFor exec names h).2
    · rw [List.filter_cons_of_neg (by simpa using hc)]
      exact ih ((attempted_other exec names (Ne.symm hc) s).symm.trans h)

/-- **The outcomes of the calls that name an owner** depend on these calls. -/
theorem outcomes_filter {b : T} (l : List (Env × Op)) :
    ∀ {s s' : Ledger L}, s.SameFor owner b s' →
      (outcomes exec s l).filter (names ·.1.2 = b) = outcomes exec s' (l.filter (names ·.2 = b)) := by
  induction l with
  | nil => intro _ _ _; rfl
  | cons c l ih =>
    intro s s' h
    rw [outcomes]
    by_cases hc : names c.2 = b
    · subst hc
      obtain ⟨ho, hs⟩ := attempted_sameFor exec names h
      rw [List.filter_cons_of_pos (by simp), List.filter_cons_of_pos (by simp), outcomes, ho, ih hs]
    · rw [List.filter_cons_of_neg (by simpa using hc), List.filter_cons_of_neg (by simpa using hc)]
      exact ih ((attempted_other exec names (Ne.symm hc) s).symm.trans h)

end

end Call

end Soroban
