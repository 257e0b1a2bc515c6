/-
  Soroban contracts — the ledger a contract runs on.

  A contract addresses its storage through one enumeration of keys, every
  constructor of which fixes the type of its argument and the type of the
  stored value (`Layout`).  A store is the family of partial maps this gives,
  so a read never has to be converted and two constructors never collide.

  * `Ledger` holds the instance, persistent and temporary store of a contract
    and the notifications it has published;
  * `Ledger.Frame W s s'`: outside the constructors `W` the instance and the
    temporary stores of `s` and `s'` are the same.
-/
import Mathlib.Logic.Function.Basic
import Mathlib.Data.List.Basic
import Mathlib.Algebra.Ring.Nat

namespace Soroban

/-- The keys of a contract: the constructors of its key enumeration, the
    argument of each, and the type of the value stored under it. -/
structure Layout where
  Field : Type
  Key : Field → Type
  Val : Field → Type
  /-- what the contract publishes with `env.events()` -/
  Note : Type
  [decField : DecidableEq Field]
  [decKey : ∀ f, DecidableEq (Key f)]

attribute [instance] Layout.decField Layout.decKey

/-- A store: for every constructor a partial map from arguments to values. -/
def Store (L : Layout) : Type := (f : L.Field) → L.Key f → Option (L.Val f)

namespace Store
variable {L : Layout}

def empty : Store L := fun _ _ => none

def set (st : Store L) (f : L.Field) (k : L.Key f) (v : L.Val f) : Store L :=
  Function.update st f (Function.update (st f) k (some v))

def remove (st : Store L) (f : L.Field) (k : L.Key f) : Store L :=
  Function.update st f (Function.update (st f) k none)

@[simp] theorem set_same (st : Store L) (f : L.Field) (k : L.Key f) (v : L.Val f) :
    st.set f k v f = Function.update (st f) k (some v) := Function.update_self ..

@[simp] theorem set_ne (st : Store L) {f g : L.Field} (k : L.Key f) (v : L.Val f) (h : g ≠ f) :
    st.set f k v g = st g := Function.update_of_ne h ..

@[simp] theorem remove_same (st : Store L) (f : L.Field) (k : L.Key f) :
    st.remove f k f = Function.update (st f) k none := Function.update_self ..

@[simp] theorem remove_ne (st : Store L) {f g : L.Field} (k : L.Key f) (h : g ≠ f) :
    st.remove f k g = st g := Function.update_of_ne h ..

/-- What is there after a removal was there before. -/
theorem of_remove {st : Store L} {f g : L.Field} {k : L.Key f} {j : L.Key g} {v : L.Val g}
    (h : st.remove f k g j = some v) : st g j = some v := by
  by_cases hf : g = f
  · subst hf
    rw [remove_same] at h
    by_cases hj : j = k
    · rw [hj, Function.update_self] at h; cases h
    · rwa [Function.update_of_ne hj] at h
  · rwa [remove_ne _ _ hf] at h

theorem remove_eq_none {st : Store L} {g : L.Field} {j : L.Key g} (h : st g j = none) (f : L.Field)
    (k : L.Key f) : st.remove f k g j = none := by
  rcases hv : st.remove f k g j with _ | v
  · rfl
  · rw [of_remove hv] at h; cases h

/-- Removing what is not there changes nothing. -/
theorem remove_of_none {st : Store L} {f : L.Field} {k : L.Key f} (h : st f k = none) :
    st.remove f k = st := by
  rw [remove, ← h, Function.update_eq_self]
  exact Function.update_eq_self f st

end Store

/-! ## Constructors -/

section
variable {α : Type} [BEq α] [LawfulBEq α] {f : α} {V W : List α}

/-- A constructor that is not among others, by evaluation. -/
theorem notMem_of_eval (h : W.contains f = false) : f ∉ W := by
  intro hf
  rw [List.contains_iff_mem.2 hf] at h
  cases h

/-- Constructors that are not among others, by evaluation. -/
theorem apart_of_eval (h : (V.all fun f => !W.contains f) = true) : ∀ f ∈ V, f ∉ W := by
  intro f hf
  have hnot := List.all_eq_true.1 h f hf
  rw [Bool.not_eq_true'] at hnot
  exact notMem_of_eval hnot

end

/-! ## Ledgers -/

/-- The ledger as one contract sees it. -/
structure Ledger (L : Layout) where
  inst : Store L
  persistent : Store L
  temporary : Store L
  published : List L.Note

namespace Ledger
variable {L : Layout}

/-- The ledger before the contract has run. -/
def empty : Ledger L := ⟨Store.empty, Store.empty, Store.empty, []⟩

/-! ## Writes -/

def put (s : Ledger L) (f : L.Field) (k : L.Key f) (v : L.Val f) : Ledger L :=
  { s with inst := s.inst.set f k v }

def del (s : Ledger L) (f : L.Field) (k : L.Key f) : Ledger L :=
  { s with inst := s.inst.remove f k }

def putPers (s : Ledger L) (f : L.Field) (k : L.Key f) (v : L.Val f) : Ledger L :=
  { s with persistent := s.persistent.set f k v }

def delPers (s : Ledger L) (f : L.Field) (k : L.Key f) : Ledger L :=
  { s with persistent := s.persistent.remove f k }

def putTemp (s : Ledger L) (f : L.Field) (k : L.Key f) (v : L.Val f) : Ledger L :=
  { s with temporary := s.temporary.set f k v }

def delTemp (s : Ledger L) (f : L.Field) (k : L.Key f) : Ledger L :=
  { s with temporary := s.temporary.remove f k }

def publish (s : Ledger L) (n : L.Note) : Ledger L :=
  { s with published := s.published ++ [n] }

section
variable (s : Ledger L) (f : L.Field) (k : L.Key f) (v : L.Val f) (n : L.Note)

@[simp] theorem put_inst : (s.put f k v).inst = s.inst.set f k v := rfl
@[simp] theorem put_temporary : (s.put f k v).temporary = s.temporary := rfl
@[simp] theorem put_persistent : (s.put f k v).persistent = s.persistent := rfl
@[simp] theorem del_inst : (s.del f k).inst = s.inst.remove f k := rfl
@[simp] theorem del_temporary : (s.del f k).temporary = s.temporary := rfl
@[simp] theorem del_persistent : (s.del f k).persistent = s.persistent := rfl
@[simp] theorem putPers_inst : (s.putPers f k v).inst = s.inst := rfl
@[simp] theorem putPers_persistent : (s.putPers f k v).persistent = s.persistent.set f k v := rfl
@[simp] theorem putPers_temporary : (s.putPers f k v).temporary = s.temporary := rfl
@[simp] theorem delPers_inst : (s.delPers f k).inst = s.inst := rfl
@[simp] theorem delPers_persistent : (s.delPers f k).persistent = s.persistent.remove f k := rfl
@[simp] theorem delPers_temporary : (s.delPers f k).temporary = s.temporary := rfl
@[simp] theorem putTemp_inst : (s.putTemp f k v).inst = s.inst := rfl
@[simp] theorem putTemp_temporary : (s.putTemp f k v).temporary = s.temporary.set f k v := rfl
@[simp] theorem delTemp_inst : (s.delTemp f k).inst = s.inst := rfl
@[simp] theorem delTemp_temporary : (s.delTemp f k).temporary = s.temporary.remove f k := rfl
@[simp] theorem delTemp_persistent : (s.delTemp f k).persistent = s.persistent := rfl
@[simp] theorem publish_inst : (s.publish n).inst = s.inst := rfl
@[simp] theorem publish_temporary : (s.publish n).temporary = s.temporary := rfl
@[simp] theorem publish_persistent : (s.publish n).persistent = s.persistent := rfl

end

theorem put_inst_ne (s : Ledger L) {f g : L.Field} {k : L.Key f} {v : L.Val f} (h : g ≠ f) :
    (s.put f k v).inst g = s.inst g := Store.set_ne _ _ _ h

/-- A write to ledgers that agree at a constructor. -/
theorem put_inst_congr {s s' : Ledger L} {f g : L.Field} {k : L.Key f} {v : L.Val f}
    (h : s.inst g = s'.inst g) : (s.put f k v).inst g = (s'.put f k v).inst g := by
  by_cases hg : g = f
  · subst hg
    rw [put_inst, put_inst, Store.set_same, Store.set_same, h]
  · rw [put_inst_ne _ hg, put_inst_ne _ hg, h]

theorem del_inst_ne (s : Ledger L) {f g : L.Field} {k : L.Key f} (h : g ≠ f) :
    (s.del f k).inst g = s.inst g := Store.remove_ne _ _ h

/-- The three stores are the same, whatever has been published. -/
structure Agrees (s s' : Ledger L) : Prop where
  inst : s.inst = s'.inst
  persistent : s.persistent = s'.persistent
  temporary : s.temporary = s'.temporary

/-! ## Frames -/

/-- Outside the constructors `W`, the instance and the temporary stores agree. -/
def Frame (W : List L.Field) (s s' : Ledger L) : Prop :=
  ∀ f, f ∉ W → s'.inst f = s.inst f ∧ s'.temporary f = s.temporary f

section
variable {W : List L.Field} {s s' s'' : Ledger L}

theorem Frame.inst (h : Frame W s s') {f : L.Field} (hf : f ∉ W) : s'.inst f = s.inst f := (h f hf).1

theorem Frame.temporary (h : Frame W s s') {f : L.Field} (hf : f ∉ W) :
    s'.temporary f = s.temporary f := (h f hf).2

theorem Frame.inst_eq (h : Frame W s s') {V : List L.Field} (hV : ∀ f ∈ V, f ∉ W) :
    ∀ f ∈ V, s'.inst f = s.inst f := fun f hf => h.inst (hV f hf)

theorem frame_refl : Frame W s s := fun _ _ => ⟨rfl, rfl⟩

theorem Frame.trans (h : Frame W s s') (h' : Frame W s' s'') : Frame W s s'' :=
  fun f hf => ⟨(h' f hf).1.trans (h f hf).1, (h' f hf).2.trans (h f hf).2⟩

theorem Frame.mono {V : List L.Field} (h : Frame W s s') (hWV : ∀ f ∈ W, f ∈ V) : Frame V s s' :=
  fun f hf => h f fun hW => hf (hWV f hW)

theorem frame_put {f : L.Field} {k : L.Key f} {v : L.Val f} (hf : f ∈ W) :
    Frame W s (s.put f k v) := fun _ hg => ⟨Store.set_ne _ _ _ fun e => hg (e ▸ hf), rfl⟩

theorem frame_del {f : L.Field} {k : L.Key f} (hf : f ∈ W) :
    Frame W s (s.del f k) := fun _ hg => ⟨Store.remove_ne _ _ fun e => hg (e ▸ hf), rfl⟩

theorem frame_putTemp {f : L.Field} {k : L.Key f} {v : L.Val f} (hf : f ∈ W) :
    Frame W s (s.putTemp f k v) := fun _ hg => ⟨rfl, Store.set_ne _ _ _ fun e => hg (e ▸ hf)⟩

theorem frame_delTemp {f : L.Field} {k : L.Key f} (hf : f ∈ W) :
    Frame W s (s.delTemp f k) := fun _ hg => ⟨rfl, Store.remove_ne _ _ fun e => hg (e ▸ hf)⟩

end

end Ledger

end Soroban
