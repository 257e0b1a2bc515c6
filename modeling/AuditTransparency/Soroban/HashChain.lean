/-
  Soroban contracts — hash chains.

  A chain is a list of entries, each of which carries the hash of its
  predecessor and its own hash, computed from it.  `Linking` says how the two
  hashes are read, computed and written; it leaves open what else is in an entry.

  * `Linked p i l`: `l` is a chain that starts at position `i` after the hash `p`;
  * `relinkAll p i l` writes the hashes of `l` afresh, and the result is linked
    whatever `l` was;
  * a chain stays a chain under `++` when the second part starts where the first
    one ends;
  * `tail_eq_iff`: where digests commit to the entries they are computed from, so
    does the last hash of a chain to all of them.
-/
import Mathlib.Data.List.Basic
import Mathlib.Data.List.GetD
import Mathlib.Data.List.Induction

namespace Soroban

variable {α D : Type}

/-- How the entries of a chain are linked. -/
structure Linking (α D : Type) where
  prev : α → D
  hash : α → D
  /-- the hash of the entry at position `i` after the hash `p` -/
  digest : ℕ → D → α → D
  /-- writes the hash of the predecessor and the own hash -/
  relink : D → D → α → α
  prev_relink : ∀ p h a, prev (relink p h a) = p
  hash_relink : ∀ p h a, hash (relink p h a) = h
  digest_relink : ∀ i q p h a, digest i q (relink p h a) = digest i q a

namespace Linking
variable (S : Linking α D)

/-- `l` is linked, from position `i` and the hash `p` on. -/
def Linked : D → ℕ → List α → Prop
  | _, _, [] => True
  | p, i, a :: l => S.prev a = p ∧ S.hash a = S.digest i p a ∧ Linked (S.hash a) (i + 1) l

/-- The hash the next entry has to link to. -/
def tail (p : D) : List α → D
  | [] => p
  | a :: l => tail (S.hash a) l

/-- `a`, linked to `p` at position `i`. -/
def link (p : D) (i : ℕ) (a : α) : α := S.relink p (S.digest i p a) a

/-- The entries of `l`, linked afresh. -/
def relinkAll : D → ℕ → List α → List α
  | _, _, [] => []
  | p, i, a :: l => S.link p i a :: relinkAll (S.digest i p a) (i + 1) l

variable {S}

@[simp] theorem hash_link (p : D) (i : ℕ) (a : α) : S.hash (S.link p i a) = S.digest i p a :=
  S.hash_relink ..

@[simp] theorem tail_append (p : D) (l : List α) (a : α) : S.tail p (l ++ [a]) = S.hash a := by
  induction l generalizing p with
  | nil => rfl
  | cons b l ih => exact ih (S.hash b)

theorem linked_append {p : D} {i : ℕ} {l m : List α} :
    S.Linked p i (l ++ m) ↔ S.Linked p i l ∧ S.Linked (S.tail p l) (i + l.length) m := by
  induction l generalizing p i with
  | nil => simp [Linked, tail]
  | cons a l ih =>
    simp only [List.cons_append, Linked, ih, tail, List.length_cons, and_assoc]
    rw [show i + 1 + l.length = i + (l.length + 1) by omega]

@[simp] theorem length_relinkAll (p : D) (i : ℕ) (l : List α) :
    (S.relinkAll p i l).length = l.length := by
  induction l generalizing p i with
  | nil => rfl
  | cons a l ih => simp [relinkAll, ih]

/-- **Re-linking restores the chain.** -/
theorem linked_relinkAll (p : D) (i : ℕ) (l : List α) : S.Linked p i (S.relinkAll p i l) := by
  induction l generalizing p i with
  | nil => trivial
  | cons a l ih =>
    refine ⟨S.prev_relink .., ?_, ?_⟩
    · rw [hash_link, link, S.digest_relink]
    · rw [hash_link]; exact ih _ _

/-- Re-linking one more entry. -/
theorem relinkAll_snoc (p : D) (i : ℕ) (l : List α) (a : α) :
    S.relinkAll p i (l ++ [a]) =
      S.relinkAll p i l ++ [S.link (S.tail p (S.relinkAll p i l)) (i + l.length) a] := by
  induction l generalizing p i with
  | nil => rfl
  | cons b l ih =>
    simp only [List.cons_append, relinkAll, ih, tail, hash_link, List.length_cons]
    rw [show i + 1 + l.length = i + (l.length + 1) by omega]

/-- What re-linking leaves alone can be read off the entry that was there. -/
theorem map_relinkAll {β : Type} {f : α → β} (hf : ∀ p h a, f (S.relink p h a) = f a)
    (p : D) (i : ℕ) (l : List α) : (S.relinkAll p i l).map f = l.map f := by
  induction l generalizing p i with
  | nil => rfl
  | cons a l ih => simp only [relinkAll, List.map_cons, ih, link, hf]

/-- A map that leaves the hashes and what they are computed from alone keeps a
    chain. -/
theorem Linked.map {f : α → α} (hp : ∀ a, S.prev (f a) = S.prev a) (hh : ∀ a, S.hash (f a) = S.hash a)
    (hd : ∀ i p a, S.digest i p (f a) = S.digest i p a) {p : D} {i : ℕ} {l : List α}
    (h : S.Linked p i l) : S.Linked p i (l.map f) := by
  induction l generalizing p i with
  | nil => trivial
  | cons a l ih =>
    obtain ⟨h₁, h₂, h₃⟩ := h
    refine ⟨(hp a).trans h₁, ?_, ?_⟩
    · rw [hh, hd]; exact h₂
    · rw [hh]; exact ih h₃

/-- The entry at position `k` of a chain. -/
theorem Linked.get {p : D} {i : ℕ} {l : List α} (h : S.Linked p i l) {k : ℕ} {a : α}
    (hk : l[k]? = some a) :
    S.prev a = S.tail p (l.take k) ∧ S.hash a = S.digest (i + k) (S.prev a) a := by
  induction l generalizing p i k with
  | nil => simp at hk
  | cons b l ih =>
    obtain ⟨h₁, h₂, h₃⟩ := h
    cases k with
    | zero =>
      obtain rfl : b = a := by simpa using hk
      exact ⟨h₁, by rw [h₁]; exact h₂⟩
    | succ k =>
      have := ih h₃ (k := k) (by simpa using hk)
      rw [show i + (k + 1) = i + 1 + k by omega]
      exact this

/-- The hash the entry at position `k` links to is that of the entry before. -/
theorem tail_take_succ {p : D} {l : List α} {k : ℕ} {a : α} (hk : l[k]? = some a) :
    S.tail p (l.take (k + 1)) = S.hash a := by
  obtain ⟨hlt, rfl⟩ := List.getElem?_eq_some_iff.1 hk
  rw [List.take_succ_eq_append_getElem hlt, tail_append]

/-- **The last hash of a chain commits to all its entries**, as far as the digests do. -/
theorem tail_eq_iff {K : Type} {key : α → K}
    (hkey : ∀ i p q a b, S.digest i p a = S.digest i q b ↔ p = q ∧ key a = key b) {p : D} {i : ℕ}
    {l m : List α} (hl : S.Linked p i l) (hm : S.Linked p i m) (hlen : l.length = m.length) :
    S.tail p l = S.tail p m ↔ l.map key = m.map key := by
  induction l using List.reverseRecOn generalizing m with
  | nil =>
    obtain rfl : m = [] := List.length_eq_zero_iff.1 hlen.symm
    simp
  | append_singleton l a ih =>
    rcases List.eq_nil_or_concat m with rfl | ⟨m, b, rfl⟩
    · simp at hlen
    · rw [List.concat_eq_append] at hm hlen ⊢
      obtain ⟨hl, hpa, hha, -⟩ := linked_append.1 hl
      obtain ⟨hm, hpb, hhb, -⟩ := linked_append.1 hm
      have hlen' : l.length = m.length := by simpa using hlen
      rw [tail_append, tail_append, hha, hhb, hlen', hkey, ih hl hm hlen']
      simp

end Linking

end Soroban
