/-
  Records that are stored under a key of their own, in the order in which the keys came: a `Map` from `key v`
  to `v`, as JavaScript goes through it.

  * `mem_set`, `mem_delete`: what is stored after a write;
  * `get_eq_some_iff`: reading;
  * `mem_ofList`: the records of a list of which no later one has the key.
-/
import Mathlib.Data.List.Nodup

/-- Records, of which no two have one key. -/
structure Keyed {κ α : Type} (key : α → κ) where
  values : List α
  nodup : (values.map key).Nodup

namespace Keyed
variable {κ α : Type} {key : α → κ}

def empty : Keyed key := ⟨[], List.nodup_nil⟩

/-- The records are replaced, in place. -/
def mapValues (m : Keyed key) (f : α → α) (hf : ∀ v, key (f v) = key v) : Keyed key where
  values := m.values.map f
  nodup := by
    rw [List.map_map, show key ∘ f = key from funext hf]
    exact m.nodup

variable [DecidableEq κ]

def get (m : Keyed key) (k : κ) : Option α := m.values.find? fun v => decide (key v = k)

/-- A key that is there keeps its place. -/
def set (m : Keyed key) (v : α) : Keyed key :=
  if h : key v ∈ m.values.map key then
    m.mapValues (fun w => if key w = key v then v else w) fun w => by
      split
      · exact Eq.symm ‹_›
      · rfl
  else
    { values := m.values ++ [v]
      nodup := by
        rw [List.map_append, List.nodup_append_comm]
        exact List.nodup_cons.2 ⟨h, m.nodup⟩ }

def delete (m : Keyed key) (k : κ) : Keyed key where
  values := m.values.filter fun v => decide (key v ≠ k)
  nodup := m.nodup.sublist (List.filter_sublist.map key)

/-- `new Map(l.map((v) => [key(v), v]))` -/
def ofList (key : α → κ) (l : List α) : Keyed key := l.foldl set empty

variable {m : Keyed key} {v w : α} {k : κ}

theorem mem_set : w ∈ (m.set v).values ↔ w = v ∨ (w ∈ m.values ∧ key w ≠ key v) := by
  rw [set]
  split
  · next h =>
    rw [mapValues, List.mem_map]
    constructor
    · rintro ⟨u, hu, rfl⟩
      split
      · exact Or.inl rfl
      · exact Or.inr ⟨hu, ‹_›⟩
    · rintro (rfl | ⟨hw, hne⟩)
      · obtain ⟨u, hu, hkey⟩ := List.mem_map.1 h
        exact ⟨u, hu, if_pos hkey⟩
      · exact ⟨w, hw, if_neg hne⟩
  · next h =>
    have hne : w ∈ m.values → key w ≠ key v := fun hw hkey => h (hkey ▸ List.mem_map_of_mem hw)
    rw [List.mem_append, List.mem_singleton, or_comm, and_iff_left_of_imp hne]

theorem mem_delete : w ∈ (m.delete k).values ↔ w ∈ m.values ∧ key w ≠ k := by
  rw [delete, List.mem_filter, decide_eq_true_iff]

theorem mem_of_get (h : m.get k = some v) : v ∈ m.values ∧ key v = k := by
  have hkey : decide (key v = k) = true := List.find?_some (p := fun w => decide (key w = k)) h
  exact ⟨List.mem_of_find?_eq_some h, of_decide_eq_true hkey⟩

theorem get_eq_some_iff : m.get k = some v ↔ v ∈ m.values ∧ key v = k := by
  refine ⟨mem_of_get, ?_⟩
  rintro ⟨hv, rfl⟩
  have hsome : (m.get (key v)).isSome := List.find?_isSome.2 ⟨v, hv, decide_eq_true rfl⟩
  obtain ⟨u, hu⟩ := Option.isSome_iff_exists.1 hsome
  obtain ⟨hmem, hkey⟩ := mem_of_get hu
  rw [hu, List.inj_on_of_nodup_map m.nodup hmem hv hkey]

/-- What is there stays, if its key is not given again. -/
theorem mem_foldl_set {l : List α} (hw : w ∈ m.values) (hl : ∀ v ∈ l, key w ≠ key v) :
    w ∈ (l.foldl set m).values := by
  induction l generalizing m with
  | nil => exact hw
  | cons v l ih =>
    have hset : w ∈ (m.set v).values := mem_set.2 (Or.inr ⟨hw, hl v List.mem_cons_self⟩)
    exact ih hset fun u hu => hl u (List.mem_cons_of_mem v hu)

theorem mem_ofList {l₁ l₂ : List α} (h : ∀ v ∈ l₂, key w ≠ key v) :
    w ∈ (ofList key (l₁ ++ w :: l₂)).values := by
  rw [ofList, List.foldl_append, List.foldl_cons]
  exact mem_foldl_set (mem_set.2 (Or.inl rfl)) h

end Keyed
