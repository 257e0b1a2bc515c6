/-
  Soroban contracts — texts in `Bytes`.

  A `&str` is a byte string that is valid UTF-8.  Positions in it are byte offsets, and a slice
  that does not begin and end between characters panics.

  * `isUtf8` reads the bytes one by one, and keeps the ranges of those that have to follow;
  * `isUtf8_append_cons`: an ASCII byte cuts a text into two texts;
  * `find`: the offset of the first occurrence, as `str::find` returns it, and `behind` the text
    behind it;
  * `sliceFrom_append_cons`: behind an ASCII byte a slice may begin.
-/
import AuditTransparency.Soroban.Call
import Mathlib.Data.List.Basic
import Mathlib.Data.Nat.Find

namespace Soroban.Utf8

variable {a b : UInt8} {u v w pat text : Bytes} {i : ℕ} {pending : List (UInt8 × UInt8)}

/-! ## Validity -/

/-- The ranges of the bytes that have to follow the first byte of a character. -/
def following (b : UInt8) : Option (List (UInt8 × UInt8)) :=
  if b < 0x80 then some []
  else if 0xC2 ≤ b ∧ b ≤ 0xDF then some [(0x80, 0xBF)]
  else if b = 0xE0 then some [(0xA0, 0xBF), (0x80, 0xBF)]
  else if b = 0xED then some [(0x80, 0x9F), (0x80, 0xBF)]
  else if 0xE1 ≤ b ∧ b ≤ 0xEF then some [(0x80, 0xBF), (0x80, 0xBF)]
  else if b = 0xF0 then some [(0x90, 0xBF), (0x80, 0xBF), (0x80, 0xBF)]
  else if b = 0xF4 then some [(0x80, 0x8F), (0x80, 0xBF), (0x80, 0xBF)]
  else if 0xF1 ≤ b ∧ b ≤ 0xF3 then some [(0x80, 0xBF), (0x80, 0xBF), (0x80, 0xBF)]
  else none

/-- The bytes complete the character that is being read, and what comes then is valid. -/
def completes : List (UInt8 × UInt8) → Bytes → Bool
  | [], [] => true
  | _ :: _, [] => false
  | (low, high) :: pending, b :: text => low ≤ b && b ≤ high && completes pending text
  | [], b :: text =>
    match following b with
    | some pending => completes pending text
    | none => false

/-- `core::str::from_utf8(..).is_ok()` -/
def isUtf8 (text : Bytes) : Bool := completes [] text

theorem le_of_mem_following (h : following b = some pending) : ∀ p ∈ pending, 0x80 ≤ p.1 := by
  unfold following at h
  split_ifs at h <;> cases h <;> simp

theorem following_of_ascii (ha : a < 0x80) : following a = some [] := if_pos ha

theorem completes_append_cons (ha : a < 0x80) (hp : ∀ p ∈ pending, 0x80 ≤ p.1) :
    completes pending (u ++ a :: v) = (completes pending u && isUtf8 v) := by
  induction u generalizing pending with
  | nil =>
    cases pending with
    | nil =>
      show (match following a with | some pending => completes pending v | none => false) = _
      rw [following_of_ascii ha]
      rfl
    | cons p pending =>
      have hlow : ¬p.1 ≤ a := UInt8.not_le.2 (UInt8.lt_of_lt_of_le ha (hp p List.mem_cons_self))
      show (decide (p.1 ≤ a) && decide (a ≤ p.2) && completes pending v) = _
      rw [decide_eq_false hlow]
      rfl
  | cons b u ih =>
    cases pending with
    | nil =>
      show (match following b with | some pending => completes pending (u ++ a :: v) | none => false) =
        ((match following b with | some pending => completes pending u | none => false) && isUtf8 v)
      rcases hb : following b with _ | pending
      · rfl
      · exact ih (le_of_mem_following hb)
    | cons p pending =>
      show (decide (p.1 ≤ b) && decide (b ≤ p.2) && completes pending (u ++ a :: v)) =
        (decide (p.1 ≤ b) && decide (b ≤ p.2) && completes pending u && isUtf8 v)
      rw [ih fun q hq => hp q (List.mem_cons_of_mem _ hq), Bool.and_assoc, Bool.and_assoc, Bool.and_assoc]

/-- **An ASCII byte cuts a text in two.** -/
theorem isUtf8_append_cons (ha : a < 0x80) : isUtf8 (u ++ a :: v) = (isUtf8 u && isUtf8 v) :=
  completes_append_cons ha nofun

theorem isUtf8_cons (ha : a < 0x80) : isUtf8 (a :: v) = isUtf8 v := by
  have h := isUtf8_append_cons (u := []) (v := v) ha
  rwa [List.nil_append, show isUtf8 [] = true from rfl, Bool.true_and] at h

/-! ## Slices -/

/-- The bytes of a character after its first. -/
def isContinuation (b : UInt8) : Bool := 0x80 ≤ b && b ≤ 0xBF

/-- `str::is_char_boundary` -/
def isCharBoundary (text : Bytes) (i : ℕ) : Bool :=
  i = 0 || match text[i]? with
    | some b => !isContinuation b
    | none => i = text.length

/-- `&text[i..]`; `none` if it panics. -/
def sliceFrom (text : Bytes) (i : ℕ) : Option Bytes :=
  if isCharBoundary text i then some (text.drop i) else none

/-- `&text[i..j]` -/
def slice (text : Bytes) (i j : ℕ) : Option Bytes :=
  if i ≤ j ∧ isCharBoundary text i ∧ isCharBoundary text j then some ((text.drop i).take (j - i)) else none

theorem isContinuation_of_ascii (ha : a < 0x80) : isContinuation a = false := by
  rw [isContinuation, decide_eq_false (UInt8.not_le.2 ha), Bool.false_and]

/-- A text does not begin with a continuation byte. -/
theorem isContinuation_of_isUtf8 (h : isUtf8 (b :: text) = true) : isContinuation b = false := by
  by_contra hb
  rw [Bool.not_eq_false, isContinuation, Bool.and_eq_true, decide_eq_true_eq, decide_eq_true_eq] at hb
  have hnone : following b = none := by
    obtain ⟨hle, hge⟩ := hb
    rw [UInt8.le_iff_toNat_le] at hle hge
    unfold following
    simp only [UInt8.le_iff_toNat_le, UInt8.lt_iff_toNat_lt, ← UInt8.toNat_inj]
    simp at hle hge ⊢
    split_ifs <;> first | rfl | omega
  have hfalse : isUtf8 (b :: text) = false := by
    show (match following b with | some pending => completes pending text | none => false) = false
    rw [hnone]
  rw [hfalse] at h
  cases h

theorem sliceFrom_zero : sliceFrom text 0 = some text := by
  have hzero : isCharBoundary text 0 = true := rfl
  rw [sliceFrom, if_pos hzero, List.drop_zero]

theorem isCharBoundary_before (ha : a < 0x80) : isCharBoundary (u ++ a :: v) u.length = true := by
  rw [isCharBoundary, List.getElem?_append_right le_rfl, Nat.sub_self, List.getElem?_cons_zero,
    Bool.or_eq_true]
  right
  show (!isContinuation a) = true
  rw [isContinuation_of_ascii ha]
  rfl

theorem isCharBoundary_behind (ha : a < 0x80) (h : isUtf8 (u ++ a :: v) = true) :
    isCharBoundary (u ++ a :: v) (u.length + 1) = true := by
  rw [isUtf8_append_cons ha, Bool.and_eq_true] at h
  have hget : (u ++ a :: v)[u.length + 1]? = v[0]? := by
    rw [List.getElem?_append_right (Nat.le_succ _), Nat.succ_sub (le_refl u.length), Nat.sub_self,
      List.getElem?_cons_succ]
  rw [isCharBoundary, hget, Bool.or_eq_true]
  right
  cases v with
  | nil =>
    show decide (u.length + 1 = (u ++ [a]).length) = true
    simp
  | cons b v =>
    show (!isContinuation b) = true
    rw [isContinuation_of_isUtf8 h.2]
    rfl

theorem drop_behind : (u ++ a :: v).drop (u.length + 1) = v := by
  rw [← List.drop_drop, List.drop_left, List.drop_one, List.tail_cons]

/-- **Behind an ASCII byte a slice may begin.** -/
theorem sliceFrom_append_cons (ha : a < 0x80) (h : isUtf8 (u ++ a :: v) = true) :
    sliceFrom (u ++ a :: v) (u.length + 1) = some v := by
  rw [sliceFrom, if_pos (isCharBoundary_behind ha h), drop_behind]

/-- A slice from behind one ASCII byte to the next. -/
theorem slice_append_cons (ha : a < 0x80) (hb : b < 0x80) (h : isUtf8 (u ++ a :: (w ++ b :: v)) = true) :
    slice (u ++ a :: (w ++ b :: v)) (u.length + 1) (u.length + 1 + w.length) = some w := by
  have hend : isCharBoundary (u ++ a :: (w ++ b :: v)) (u.length + 1 + w.length) = true := by
    have hcut := isCharBoundary_before (u := u ++ a :: w) (v := v) hb
    rw [List.append_assoc, List.cons_append, List.length_append, List.length_cons] at hcut
    rwa [Nat.add_right_comm u.length 1, Nat.add_assoc]
  rw [slice, if_pos ⟨Nat.le_add_right _ _, isCharBoundary_behind ha h, hend⟩, drop_behind,
    Nat.add_sub_cancel_left, List.take_left]

/-! ## Search -/

/-- `text.find(pat)` -/
def find (pat text : Bytes) : Option ℕ :=
  (List.range (text.length + 1)).find? fun i => pat.isPrefixOf (text.drop i)

/-- The first occurrence. -/
theorem find_eq_some : find pat text = some i ↔
    pat <+: text.drop i ∧ i ≤ text.length ∧ ∀ j < i, ¬pat <+: text.drop j := by
  simp only [find, List.find?_range_eq_some, List.isPrefixOf_iff_prefix, List.mem_range, Nat.lt_succ_iff,
    Bool.not_eq_true', ← Bool.not_eq_true]

/-- What occurs is found, there or before. -/
theorem exists_find (u pat v : Bytes) : ∃ i ≤ u.length, find pat (u ++ pat ++ v) = some i := by
  classical
  have hhere : pat <+: (u ++ pat ++ v).drop u.length := by
    rw [List.append_assoc, List.drop_left]
    exact List.prefix_append _ _
  have hocc : ∃ i, pat <+: (u ++ pat ++ v).drop i := ⟨u.length, hhere⟩
  have hle : Nat.find hocc ≤ u.length := Nat.find_min' hocc hhere
  have hlen : u.length ≤ (u ++ pat ++ v).length := by simp
  exact ⟨Nat.find hocc, hle, find_eq_some.2
    ⟨Nat.find_spec hocc, Nat.le_trans hle hlen, fun j hj => Nat.find_min hocc hj⟩⟩

/-- The text at the first occurrence. -/
theorem append_of_find (h : find pat text = some i) :
    ∃ u v, text = u ++ pat ++ v ∧ u.length = i := by
  obtain ⟨⟨v, hv⟩, hle, -⟩ := find_eq_some.1 h
  refine ⟨text.take i, v, ?_, ?_⟩
  · rw [List.append_assoc, hv, List.take_append_drop]
  · rw [List.length_take, Nat.min_eq_left hle]

/-- The text behind the first occurrence. -/
def behind (pat text : Bytes) : Option Bytes := (find pat text).map fun i => text.drop (i + pat.length)

theorem behind_append (h : find pat (u ++ pat ++ v) = some u.length) : behind pat (u ++ pat ++ v) = some v := by
  rw [behind, h, Option.map_some, ← List.length_append, List.drop_left]

theorem append_of_behind (h : behind pat text = some v) : ∃ u, text = u ++ pat ++ v := by
  rw [behind, Option.map_eq_some_iff] at h
  obtain ⟨i, hfind, rfl⟩ := h
  obtain ⟨u, v, rfl, rfl⟩ := append_of_find hfind
  refine ⟨u, ?_⟩
  rw [← List.length_append, List.drop_left]

/-- The first occurrence is at another one or before it. -/
theorem exists_behind (u pat v : Bytes) :
    ∃ u' w, u ++ pat = u' ++ pat ++ w ∧ behind pat (u ++ pat ++ v) = some (w ++ v) := by
  obtain ⟨i, hle, hfind⟩ := exists_find u pat v
  obtain ⟨u', v', heq, rfl⟩ := append_of_find hfind
  have hsuffix : v <:+ v' := by
    refine List.suffix_of_suffix_length_le (List.suffix_append (u ++ pat) v) (heq ▸ List.suffix_append _ v') ?_
    have hlen := congrArg List.length heq
    simp only [List.length_append] at hlen
    omega
  obtain ⟨w, rfl⟩ := hsuffix
  refine ⟨u', w, ?_, ?_⟩
  · rw [← List.append_assoc] at heq
    exact List.append_cancel_right heq
  · rw [heq] at hfind ⊢
    exact behind_append hfind

theorem find_singleton (hu : a ∉ u) : find [a] (u ++ a :: v) = some u.length := by
  refine find_eq_some.2 ⟨?_, by simp, fun j hj hpre => ?_⟩
  · rw [List.drop_left]
    exact ⟨v, rfl⟩
  · obtain ⟨z, hz⟩ := hpre
    rw [List.drop_append_of_le_length (Nat.le_of_lt hj), List.drop_eq_getElem_cons hj] at hz
    have hget := (List.cons.inj hz).1
    exact hu (hget ▸ List.getElem_mem hj)

theorem find_eq_none (ha : a ∉ text) : find [a] text = none := by
  rcases h : find [a] text with _ | i
  · rfl
  · obtain ⟨u, v, rfl, -⟩ := append_of_find h
    simp at ha

theorem behind_singleton (hu : a ∉ u) : behind [a] (u ++ a :: v) = some v := by
  rw [behind, find_singleton hu, Option.map_some, List.length_singleton, drop_behind]

end Soroban.Utf8
