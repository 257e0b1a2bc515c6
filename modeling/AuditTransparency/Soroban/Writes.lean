/-
  Soroban contracts — which keys a call can write.

  `Reads m` says that `m` leaves the ledger as it is, `Writes L W m` that it
  changes no instance or temporary entry outside the constructors `W`, and
  `InstanceOnly m` that it changes the instance store only.  They are
  classes: the instances follow the shape of a `do` block, so the claim for a
  contract function is found by instance search once the function is unfolded,
  and is available wherever the function is called.

  Instances for functions are stated over an arbitrary `W` with `Sub V W`, so a
  caller that writes more can use them.
-/
import AuditTransparency.Soroban.Call

namespace Soroban

/-- `f ∈ W`, found by instance search. -/
class In {F : Type} (f : F) (W : List F) : Prop where
  mem : f ∈ W

instance {F : Type} (f : F) (W : List F) : In f (f :: W) := ⟨List.mem_cons_self ..⟩
instance {F : Type} (f g : F) (W : List F) [h : In f W] : In f (g :: W) :=
  ⟨List.mem_cons_of_mem _ h.mem⟩

instance {F : Type} (f : F) (V W : List F) [h : In f V] : In f (V ++ W) :=
  ⟨List.mem_append_left _ h.mem⟩
instance {F : Type} (f : F) (V W : List F) [h : In f W] : In f (V ++ W) :=
  ⟨List.mem_append_right _ h.mem⟩

/-- `V ⊆ W`, found by instance search. -/
class Sub {F : Type} (V W : List F) : Prop where
  sub : ∀ f ∈ V, f ∈ W

instance {F : Type} (W : List F) : Sub [] W := ⟨fun _ h => by cases h⟩
instance {F : Type} (f : F) (V W : List F) [hf : In f W] [hV : Sub V W] : Sub (f :: V) W :=
  ⟨List.forall_mem_cons.2 ⟨hf.mem, hV.sub⟩⟩
instance {F : Type} (U V W : List F) [hU : Sub U W] [hV : Sub V W] : Sub (U ++ V) W :=
  ⟨List.forall_mem_append.2 ⟨hU.sub, hV.sub⟩⟩

namespace Call
variable {E : Type} {L : Layout} {α β : Type}

/-! ## Calls that only read -/

/-- `m` leaves the ledger as it is. -/
class Reads (m : Call E L α) : Prop where
  eq : ∀ env s, Post m (fun _ s' => s' = s) env s

theorem Reads.of_run {m : Call E L α} (h : Reads m) {env : Env} {s s' : Ledger L} {a : α}
    (hr : m.run env s = .ok (a, s')) : s' = s := h.eq env s a s' hr

theorem post_reads {m : Call E L α} [hm : Reads m] {Q : α → Ledger L → Prop} {env : Env}
    {s : Ledger L} (h : ∀ a, m.run env s = .ok (a, s) → Q a s) : Post m Q env s := by
  intro a s' hr
  have e := hm.of_run hr
  subst e
  exact h a hr

/-- After a call that only reads, the rest runs from the same ledger. -/
theorem post_bind_reads {m : Call E L β} [hm : Reads m] {f : β → Call E L α}
    {Q : α → Ledger L → Prop} {env : Env} {s : Ledger L}
    (h : ∀ b, m.run env s = .ok (b, s) → Post (f b) Q env s) : Post (m >>= f) Q env s :=
  post_bind.2 (post_reads h)

section

instance (a : α) : Reads (pure a : Call E L α) := ⟨by simp⟩
instance (e : Trap E) : Reads (trap e : Call E L α) := ⟨by simp⟩
instance : Reads (getEnv : Call E L Env) := ⟨by simp⟩
instance (c : Prop) [Decidable c] (e : E) : Reads (rejectIf c e : Call E L Unit) := ⟨by simp⟩
instance (a : Address) : Reads (requireAuth a : Call E L Unit) := ⟨by simp⟩
instance (o : Option α) : Reads (unwrap o : Call E L α) := ⟨by simp⟩
instance (o : Option α) (e : E) : Reads (unwrapOr o e : Call E L α) := ⟨by simp⟩
instance (w a b : ℕ) : Reads (addChecked w a b : Call E L ℕ) := ⟨by simp⟩
instance (w a b : ℕ) : Reads (mulChecked w a b : Call E L ℕ) := ⟨by simp⟩
instance (a b : ℕ) : Reads (subChecked a b : Call E L ℕ) := ⟨by simp⟩
instance (a b : ℕ) : Reads (divChecked a b : Call E L ℕ) := ⟨by simp⟩
-- the type of a read depends on the key, so it must not index the instance
instance (f : L.Field) (k : L.Key f) :
    Reads (α := no_index (Option (L.Val f))) (load L f k : Call E L _) := ⟨by simp⟩
instance (f : L.Field) (k : L.Key f) :
    Reads (α := no_index (Option (L.Val f))) (loadTemp L f k : Call E L _) := ⟨by simp⟩
instance (f : L.Field) (k : L.Key f) : Reads (hasPers L f k : Call E L _) := ⟨by simp⟩
instance (f : L.Field) (k : L.Key f) :
    Reads (α := no_index (Option (L.Val f))) (loadPers L f k : Call E L _) := ⟨by simp⟩

instance (m : Call E L β) (f : β → Call E L α) [hm : Reads m] [hf : ∀ b, Reads (f b)] :
    Reads (m >>= f) :=
  ⟨fun env s => post_bind_reads fun b _ => (hf b).eq env s⟩

instance (c : Prop) [Decidable c] (m n : Call E L α) [hm : Reads m] [hn : Reads n] :
    Reads (if c then m else n) :=
  ⟨fun env s => post_ite.2 ⟨fun _ => hm.eq env s, fun _ => hn.eq env s⟩⟩

instance (c : Prop) [Decidable c] (m : Call E L Unit) [Reads m] : Reads (doIf c m) :=
  inferInstanceAs (Reads (if c then m else pure ()))

instance (o : Option β) (f : β → Call E L α) (m : Call E L α) [hf : ∀ b, Reads (f b)] [hm : Reads m] :
    Reads (onSome o f m) := by
  cases o with
  | none => exact hm
  | some b => exact hf b

instance (o : Option β) (f : β → Call E L Unit) [hf : ∀ b, Reads (f b)] : Reads (ifSome o f) := by
  cases o with
  | none => exact inferInstanceAs (Reads (pure () : Call E L Unit))
  | some b => exact hf b

instance (f : α → β → Call E L α) (l : List β) (a : α) [hf : ∀ a b, Reads (f a b)] :
    Reads (l.foldlM f a) := by
  induction l generalizing a with
  | nil => exact inferInstanceAs (Reads (pure a : Call E L α))
  | cons b l ih => rw [List.foldlM_cons]; infer_instance

end

/-! ## Calls that write -/

/-- `m` changes no instance or temporary entry outside `W`. -/
class Writes (L : Layout) (W : List L.Field) (m : Call E L α) : Prop where
  frame : ∀ env s, Post m (fun _ s' => s.Frame W s') env s

theorem Writes.of_run {W : List L.Field} {m : Call E L α} (h : Writes L W m) {env : Env}
    {s s' : Ledger L} {a : α} (hr : m.run env s = .ok (a, s')) : s.Frame W s' :=
  h.frame env s a s' hr

/-- What a call cannot write may be used where its result is described. -/
theorem Post.with_frame {W : List L.Field} {m : Call E L α} [hw : Writes L W m]
    {Q : α → Ledger L → Prop} {env : Env} {s : Ledger L}
    (h : Post m (fun a s' => s.Frame W s' → Q a s') env s) : Post m Q env s :=
  fun a s' hr => h a s' hr (hw.of_run hr)

theorem Writes.mono {V W : List L.Field} {m : Call E L α} (h : Writes L V m) [hs : Sub V W] :
    Writes L W m :=
  ⟨fun env s => (h.frame env s).mono fun _ _ hf g hg => hf g fun hV => hg (hs.sub g hV)⟩

section
variable {W : List L.Field}

instance (priority := low) (m : Call E L α) [h : Reads m] : Writes L W m :=
  ⟨fun env s => (h.eq env s).mono fun _ _ e => e ▸ Ledger.frame_refl⟩

instance (f : L.Field) (k : L.Key f) (v : L.Val f) [h : In f W] :
    Writes L W (store L f k v : Call E L _) :=
  ⟨fun _ _ => post_store.2 (Ledger.frame_put h.mem)⟩
instance (f : L.Field) (k : L.Key f) [h : In f W] : Writes L W (clear L f k : Call E L _) :=
  ⟨fun _ _ => post_clear.2 (Ledger.frame_del h.mem)⟩
instance (f : L.Field) (k : L.Key f) (v : L.Val f) [h : In f W] :
    Writes L W (storeTemp L f k v : Call E L _) :=
  ⟨fun _ _ => post_storeTemp.2 (Ledger.frame_putTemp h.mem)⟩
instance (f : L.Field) (k : L.Key f) [h : In f W] : Writes L W (clearTemp L f k : Call E L _) :=
  ⟨fun _ _ => post_clearTemp.2 (Ledger.frame_delTemp h.mem)⟩
instance (f : L.Field) (k : L.Key f) (v : L.Val f) : Writes L W (storePers L f k v : Call E L _) :=
  ⟨fun _ _ => post_storePers.2 fun _ _ => ⟨rfl, rfl⟩⟩
instance (n : L.Note) : Writes L W (publish L n : Call E L _) :=
  ⟨fun _ _ => post_publish.2 fun _ _ => ⟨rfl, rfl⟩⟩

theorem Writes.bind {m : Call E L β} {f : β → Call E L α} (hm : Writes L W m)
    (hf : ∀ b, Writes L W (f b)) : Writes L W (m >>= f) :=
  ⟨fun env s => post_bind.2 <| (hm.frame env s).mono fun b s' h =>
    ((hf b).frame env s').mono fun _ _ h' => h.trans h'⟩

instance (m : Call E L β) (f : β → Call E L α) [hm : Writes L W m] [hf : ∀ b, Writes L W (f b)] :
    Writes L W (m >>= f) := hm.bind hf

instance (c : Prop) [Decidable c] (m n : Call E L α) [hm : Writes L W m] [hn : Writes L W n] :
    Writes L W (if c then m else n) :=
  ⟨fun env s => post_ite.2 ⟨fun _ => hm.frame env s, fun _ => hn.frame env s⟩⟩

instance (c : Prop) [Decidable c] (m : Call E L Unit) [Writes L W m] : Writes L W (doIf c m) :=
  inferInstanceAs (Writes L W (if c then m else pure ()))

instance (o : Option β) (f : β → Call E L α) (m : Call E L α) [hf : ∀ b, Writes L W (f b)]
    [hm : Writes L W m] : Writes L W (onSome o f m) := by
  cases o with
  | none => exact hm
  | some b => exact hf b

instance (o : Option β) (f : β → Call E L Unit) [hf : ∀ b, Writes L W (f b)] :
    Writes L W (ifSome o f) := by
  cases o with
  | none => exact inferInstanceAs (Writes L W (pure () : Call E L Unit))
  | some b => exact hf b

instance (f : α → β → Call E L α) (l : List β) (a : α) [hf : ∀ a b, Writes L W (f a b)] :
    Writes L W (l.foldlM f a) := by
  induction l generalizing a with
  | nil => exact inferInstanceAs (Writes L W (pure a : Call E L α))
  | cons b l ih => rw [List.foldlM_cons]; infer_instance

end

/-! ## Calls that write the instance store only -/

/-- `m` leaves the persistent and the temporary store as they are. -/
class InstanceOnly (m : Call E L α) : Prop where
  kept : ∀ env s, Post m (fun _ s' => s'.persistent = s.persistent ∧ s'.temporary = s.temporary) env s

theorem InstanceOnly.of_run {m : Call E L α} (h : InstanceOnly m) {env : Env} {s s' : Ledger L} {a : α}
    (hr : m.run env s = .ok (a, s')) : s'.persistent = s.persistent ∧ s'.temporary = s.temporary :=
  h.kept env s a s' hr

section

instance (priority := low) (m : Call E L α) [h : Reads m] : InstanceOnly m :=
  ⟨fun env s => (h.eq env s).mono fun _ _ e => e ▸ ⟨rfl, rfl⟩⟩

instance (f : L.Field) (k : L.Key f) (v : L.Val f) : InstanceOnly (store L f k v : Call E L _) :=
  ⟨fun _ _ => post_store.2 ⟨rfl, rfl⟩⟩
instance (f : L.Field) (k : L.Key f) : InstanceOnly (clear L f k : Call E L _) :=
  ⟨fun _ _ => post_clear.2 ⟨rfl, rfl⟩⟩
instance (n : L.Note) : InstanceOnly (publish L n : Call E L _) :=
  ⟨fun _ _ => post_publish.2 ⟨rfl, rfl⟩⟩

instance (m : Call E L β) (f : β → Call E L α) [hm : InstanceOnly m] [hf : ∀ b, InstanceOnly (f b)] :
    InstanceOnly (m >>= f) :=
  ⟨fun env s => post_bind.2 <| (hm.kept env s).mono fun b s' h =>
    ((hf b).kept env s').mono fun _ _ h' => ⟨h'.1.trans h.1, h'.2.trans h.2⟩⟩

instance (c : Prop) [Decidable c] (m n : Call E L α) [hm : InstanceOnly m] [hn : InstanceOnly n] :
    InstanceOnly (if c then m else n) :=
  ⟨fun env s => post_ite.2 ⟨fun _ => hm.kept env s, fun _ => hn.kept env s⟩⟩

instance (c : Prop) [Decidable c] (m : Call E L Unit) [InstanceOnly m] : InstanceOnly (doIf c m) :=
  inferInstanceAs (InstanceOnly (if c then m else pure ()))

instance (o : Option β) (f : β → Call E L α) (m : Call E L α) [hf : ∀ b, InstanceOnly (f b)]
    [hm : InstanceOnly m] : InstanceOnly (onSome o f m) := by
  cases o with
  | none => exact hm
  | some b => exact hf b

instance (o : Option β) (f : β → Call E L Unit) [hf : ∀ b, InstanceOnly (f b)] :
    InstanceOnly (ifSome o f) := by
  cases o with
  | none => exact inferInstanceAs (InstanceOnly (pure () : Call E L Unit))
  | some b => exact hf b

instance (f : α → β → Call E L α) (l : List β) (a : α) [hf : ∀ a b, InstanceOnly (f a b)] :
    InstanceOnly (l.foldlM f a) := by
  induction l generalizing a with
  | nil => exact inferInstanceAs (InstanceOnly (pure a : Call E L α))
  | cons b l ih => rw [List.foldlM_cons]; infer_instance

end

end Call

end Soroban
