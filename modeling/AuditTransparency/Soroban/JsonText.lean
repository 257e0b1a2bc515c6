/-
  Soroban contracts — JSON texts in `Bytes`, and the strings in them.

  * `Derives`: the grammar of values, elements and members, over the bytes of a text;
  * `quoted`: what a reader finds who knows quotation marks only, and takes them in pairs;
  * `Lexed.quoted_eq_nil_iff`: in a part of a JSON text such a reader finds nothing exactly if
    no string is written in it but the empty one.
-/
import AuditTransparency.Soroban.Decimal

namespace Soroban.JsonText

/-- `"` -/
abbrev mark : UInt8 := 34
/-- `\` -/
abbrev backslash : UInt8 := 92
abbrev comma : UInt8 := 44
abbrev colon : UInt8 := 58
/-- `[` -/
abbrev openBracket : UInt8 := 91
/-- `]` -/
abbrev closeBracket : UInt8 := 93
/-- `{` -/
abbrev openBrace : UInt8 := 123
/-- `}` -/
abbrev closeBrace : UInt8 := 125

theorem mark_ascii : mark < 0x80 := by decide
theorem comma_ascii : comma < 0x80 := by decide
theorem openBracket_ascii : openBracket < 0x80 := by decide

/-! ## The grammar -/

/-- `ws` -/
def Space (w : Bytes) : Prop := ∀ b ∈ w, b = 0x20 ∨ b = 0x09 ∨ b = 0x0A ∨ b = 0x0D

/-- What stands in a string as itself. -/
def IsPlain (b : UInt8) : Prop := 0x20 ≤ b ∧ b ≠ mark ∧ b ≠ backslash

instance : DecidablePred IsPlain := fun b => inferInstanceAs (Decidable (0x20 ≤ b ∧ b ≠ mark ∧ b ≠ backslash))

def IsHex (b : UInt8) : Prop := 48 ≤ b ∧ b ≤ 57 ∨ 65 ≤ b ∧ b ≤ 70 ∨ 97 ≤ b ∧ b ≤ 102

/-- `*char` -/
inductive Chars : Bytes → Prop where
  | nil : Chars []
  | plain {b l} : IsPlain b → Chars l → Chars (b :: l)
  | escape {b l} : b ∈ ascii "\"\\/bfnrt" → Chars l → Chars (backslash :: b :: l)
  | code {a b c d l} : IsHex a → IsHex b → IsHex c → IsHex d → Chars l →
      Chars (backslash :: 117 :: a :: b :: c :: d :: l)

/-- A string with its quotation marks. -/
def literal (c : Bytes) : Bytes := mark :: (c ++ [mark])

def Digits (l : Bytes) : Prop := l ≠ [] ∧ ∀ b ∈ l, 48 ≤ b ∧ b ≤ 57

/-- `[ minus ] int [ frac ] [ exp ]` -/
inductive Number : Bytes → Prop where
  | mk {sign int frac exp : Bytes} : (sign = [] ∨ sign = [45]) →
      (int = [48] ∨ Digits int ∧ int.head? ≠ some 48) →
      (frac = [] ∨ ∃ l, Digits l ∧ frac = 46 :: l) →
      (exp = [] ∨ ∃ e s l, (e = 101 ∨ e = 69) ∧ (s = [] ∨ s = [43] ∨ s = [45]) ∧ Digits l ∧ exp = e :: (s ++ l)) →
      Number (sign ++ int ++ frac ++ exp)

/-- What there is to derive. -/
inductive Phrase where
  | value
  | element
  | elements
  | member
  | members

/-- The bytes of a phrase. -/
inductive Derives : Phrase → Bytes → Prop where
  | string {c} : Chars c → Derives .value (literal c)
  | number {l} : Number l → Derives .value l
  | word {l} : l = ascii "true" ∨ l = ascii "false" ∨ l = ascii "null" → Derives .value l
  | emptyArray {w} : Space w → Derives .value (openBracket :: (w ++ [closeBracket]))
  | array {l} : Derives .elements l → Derives .value (openBracket :: (l ++ [closeBracket]))
  | emptyObject {w} : Space w → Derives .value (openBrace :: (w ++ [closeBrace]))
  | object {l} : Derives .members l → Derives .value (openBrace :: (l ++ [closeBrace]))
  | element {w v w'} : Space w → Derives .value v → Space w' → Derives .element (w ++ v ++ w')
  | lastElement {l} : Derives .element l → Derives .elements l
  | nextElement {l m} : Derives .element l → Derives .elements m → Derives .elements (l ++ comma :: m)
  | member {w k w' l} : Space w → Chars k → Space w' → Derives .element l →
      Derives .member (w ++ literal k ++ w' ++ colon :: l)
  | lastMember {l} : Derives .member l → Derives .members l
  | nextMember {l m} : Derives .member l → Derives .members m → Derives .members (l ++ comma :: m)

/-! ## Strings and other bytes -/

/-- Strings, and bytes outside strings. -/
inductive Lexed : Bytes → Prop where
  | nil : Lexed []
  | other {b l} : b ≠ mark → Lexed l → Lexed (b :: l)
  | text {c l} : Chars c → Lexed l → Lexed (literal c ++ l)

/-- **No string is written but the empty one.** -/
inductive Wordless : Bytes → Prop where
  | nil : Wordless []
  | other {b l} : b ≠ mark → Wordless l → Wordless (b :: l)
  | empty {l} : Wordless l → Wordless (mark :: mark :: l)

variable {b : UInt8} {c l m n u v w : Bytes} {p : Phrase}

/-- The check of a given text. -/
theorem plain_of_all (h : (l.all fun b => decide (IsPlain b)) = true) : ∀ b ∈ l, IsPlain b :=
  fun b hb => of_decide_eq_true (List.all_eq_true.1 h b hb)

theorem Lexed.append (hl : Lexed l) (hm : Lexed m) : Lexed (l ++ m) := by
  induction hl with
  | nil => exact hm
  | other hb _ ih => exact .other hb ih
  | text hc _ ih =>
    rw [List.append_assoc]
    exact .text hc ih

theorem lexed_of_unmarked (h : mark ∉ l) : Lexed l := by
  induction l with
  | nil => exact .nil
  | cons b l ih =>
    rw [List.mem_cons, not_or] at h
    exact .other (Ne.symm h.1) (ih h.2)

theorem lexed_literal (hc : Chars c) : Lexed (literal c) := by
  have h := Lexed.text hc .nil
  rwa [List.append_nil] at h

theorem Space.unmarked (h : Space w) : mark ∉ w := by
  intro hm
  have hb := h mark hm
  revert hb
  decide

theorem Space.unbracketed (h : Space w) : openBracket ∉ w := by
  intro hm
  have hb := h openBracket hm
  revert hb
  decide

theorem Space.lexed (h : Space w) : Lexed w := lexed_of_unmarked h.unmarked

theorem Digits.unmarked (h : Digits l) : mark ∉ l := by
  intro hm
  have hb := h.2 mark hm
  revert hb
  decide

theorem Number.unmarked (h : Number l) : mark ∉ l := by
  obtain ⟨hsign, hint, hfrac, hexp⟩ := h
  simp only [List.mem_append, not_or]
  refine ⟨⟨⟨?_, ?_⟩, ?_⟩, ?_⟩
  · rcases hsign with rfl | rfl <;> decide
  · rcases hint with rfl | ⟨hd, -⟩
    · decide
    · exact hd.unmarked
  · rcases hfrac with rfl | ⟨l, hd, rfl⟩
    · exact List.not_mem_nil
    · exact List.not_mem_cons_of_ne_of_not_mem (by decide) hd.unmarked
  · rcases hexp with rfl | ⟨e, s, l, he, hs, hd, rfl⟩
    · exact List.not_mem_nil
    · refine List.not_mem_cons_of_ne_of_not_mem ?_ ?_
      · rcases he with rfl | rfl <;> decide
      · rw [List.mem_append, not_or]
        refine ⟨?_, hd.unmarked⟩
        rcases hs with rfl | rfl | rfl <;> decide

/-- **Every phrase consists of strings and bytes outside strings.** -/
theorem Derives.lexed (h : Derives p l) : Lexed l := by
  have hone : ∀ {b : UInt8}, b ≠ mark → Lexed [b] := fun hb => .other hb .nil
  induction h with
  | string hc => exact lexed_literal hc
  | number hn => exact lexed_of_unmarked hn.unmarked
  | word hw =>
    refine lexed_of_unmarked ?_
    rcases hw with rfl | rfl | rfl <;> decide
  | emptyArray hw | emptyObject hw => exact .other (by decide) (hw.lexed.append (hone (by decide)))
  | array _ ih | object _ ih => exact .other (by decide) (ih.append (hone (by decide)))
  | element hw _ hw' ih => exact (hw.lexed.append ih).append hw'.lexed
  | lastElement _ ih | lastMember _ ih => exact ih
  | nextElement _ _ ihl ihm | nextMember _ _ ihl ihm => exact ihl.append (.other (by decide) ihm)
  | member hw hk hw' _ ih =>
    exact ((hw.lexed.append (lexed_literal hk)).append hw'.lexed).append (.other (by decide) ih)

/-- Members and members behind a comma. -/
theorem Derives.members_append (hl : Derives .members l) (hm : Derives .members m) :
    Derives .members (l ++ comma :: m) := by
  generalize hp : Phrase.members = p at hl
  induction hl with
  | lastMember h _ => exact .nextMember h hm
  | nextMember h _ _ ih =>
    rw [List.append_assoc, List.cons_append]
    exact .nextMember h (ih hp)
  | _ => cases hp

/-! ## Reading quotation marks only -/

/-- The non-empty texts between quotation marks, where `o` is what has been read since the last mark that
    opens a text. -/
def quotedFrom : Option Bytes → Bytes → List Bytes
  | _, [] => []
  | none, b :: l => if b = mark then quotedFrom (some []) l else quotedFrom none l
  | some w, b :: l =>
    if b = mark then
      if w = [] then quotedFrom none l else w :: quotedFrom none l
    else quotedFrom (some (w ++ [b])) l

/-- The non-empty texts between quotation marks. -/
def quoted (l : Bytes) : List Bytes := quotedFrom none l

/-- What has been read since the last mark that opens a text, after some more bytes. -/
def pendingAfter : Option Bytes → Bytes → Option Bytes
  | o, [] => o
  | none, b :: l => pendingAfter (if b = mark then some [] else none) l
  | some w, b :: l => pendingAfter (if b = mark then none else some (w ++ [b])) l

theorem quotedFrom_nil (o : Option Bytes) : quotedFrom o [] = [] := by
  cases o <;> rfl

theorem quotedFrom_none : quotedFrom none (b :: l) =
    if b = mark then quotedFrom (some []) l else quotedFrom none l := rfl

theorem quotedFrom_some : quotedFrom (some w) (b :: l) =
    if b = mark then if w = [] then quotedFrom none l else w :: quotedFrom none l
    else quotedFrom (some (w ++ [b])) l := rfl

theorem pendingAfter_none : pendingAfter none (b :: l) = pendingAfter (if b = mark then some [] else none) l := rfl

theorem pendingAfter_some :
    pendingAfter (some w) (b :: l) = pendingAfter (if b = mark then none else some (w ++ [b])) l := rfl

theorem quotedFrom_none_append (h : mark ∉ u) : quotedFrom none (u ++ v) = quotedFrom none v := by
  induction u with
  | nil => rfl
  | cons b u ih =>
    rw [List.mem_cons, not_or] at h
    rw [List.cons_append, quotedFrom_none, if_neg (Ne.symm h.1), ih h.2]

theorem quotedFrom_some_append (h : mark ∉ u) :
    quotedFrom (some w) (u ++ v) = quotedFrom (some (w ++ u)) v := by
  induction u generalizing w with
  | nil => rw [List.append_nil, List.nil_append]
  | cons b u ih =>
    rw [List.mem_cons, not_or] at h
    rw [List.cons_append, quotedFrom_some, if_neg (Ne.symm h.1), ih h.2, List.append_assoc, List.singleton_append]

theorem quotedFrom_open : quotedFrom none (mark :: v) = quotedFrom (some []) v := by
  rw [quotedFrom_none, if_pos rfl]

theorem quotedFrom_close (hw : w ≠ []) : quotedFrom (some w) (mark :: v) = w :: quotedFrom none v := by
  rw [quotedFrom_some, if_pos rfl, if_neg hw]

theorem quotedFrom_empty : quotedFrom none (mark :: mark :: v) = quotedFrom none v := by
  rw [quotedFrom_open, quotedFrom_some, if_pos rfl, if_pos rfl]

/-- **A string is read**, if there is no mark in it. -/
theorem quotedFrom_literal (hn : mark ∉ n) (hne : n ≠ []) :
    quotedFrom none (literal n ++ v) = n :: quotedFrom none v := by
  rw [literal, List.cons_append, quotedFrom_open, List.append_assoc, quotedFrom_some_append hn,
    List.nil_append, List.singleton_append, quotedFrom_close hne]

/-- Where a text is open, the first mark of a string closes it. -/
theorem quotedFrom_some_literal (hw : w ≠ []) (hn : mark ∉ n) :
    quotedFrom (some w) (literal n ++ v) = w :: quotedFrom (some []) v := by
  rw [literal, List.cons_append, quotedFrom_close hw, List.append_assoc, quotedFrom_none_append hn,
    List.singleton_append, quotedFrom_open]

theorem quoted_eq_nil (h : mark ∉ l) (o : Option Bytes) : quotedFrom o l = [] := by
  rw [← List.append_nil l]
  cases o with
  | none => rw [quotedFrom_none_append h, quotedFrom_nil]
  | some w => rw [quotedFrom_some_append h, quotedFrom_nil]

/-- **Marks in pairs**: there is no mark, one that stays open, or the text between two of them. -/
@[elab_as_elim]
theorem marks_induction {P : Bytes → Prop} (none : ∀ l, mark ∉ l → P l)
    (single : ∀ u v, mark ∉ u → mark ∉ v → P (u ++ mark :: v))
    (pair : ∀ u n v, mark ∉ u → mark ∉ n → P v → P (u ++ mark :: (n ++ mark :: v))) (l : Bytes) : P l := by
  induction hlen : l.length using Nat.strong_induction_on generalizing l with
  | _ k ih =>
    subst hlen
    by_cases hopen : mark ∈ l
    · obtain ⟨u, v, rfl, hu⟩ := List.eq_append_cons_of_mem hopen
      by_cases hclose : mark ∈ v
      · obtain ⟨n, v, rfl, hn⟩ := List.eq_append_cons_of_mem hclose
        refine pair u n v hu hn (ih v.length ?_ v rfl)
        simp only [List.length_append, List.length_cons]
        omega
      · exact single u v hu hclose
    · exact none l hopen

theorem quoted_single (hu : mark ∉ u) (hv : mark ∉ v) : quoted (u ++ mark :: v) = [] := by
  rw [quoted, quotedFrom_none_append hu, quotedFrom_open, quoted_eq_nil hv]

theorem quoted_pair (hu : mark ∉ u) (hn : mark ∉ n) :
    quoted (u ++ mark :: (n ++ mark :: v)) = if n = [] then quoted v else n :: quoted v := by
  rw [quoted, quotedFrom_none_append hu, quotedFrom_open, quotedFrom_some_append hn, List.nil_append, quotedFrom_some,
    if_pos rfl, quoted]

/-- Reading goes on from what has been read. -/
theorem exists_quotedFrom_append (o : Option Bytes) (u v : Bytes) :
    ∃ found, quotedFrom o (u ++ v) = found ++ quotedFrom (pendingAfter o u) v := by
  induction u generalizing o with
  | nil => exact ⟨[], rfl⟩
  | cons b u ih =>
    cases o with
    | none =>
      rw [List.cons_append, quotedFrom_none, pendingAfter_none]
      split_ifs <;> exact ih _
    | some w =>
      rw [List.cons_append, quotedFrom_some, pendingAfter_some]
      split_ifs with hb hw
      · exact ih _
      · obtain ⟨found, hfound⟩ := ih none
        exact ⟨w :: found, by rw [hfound, List.cons_append]⟩
      · exact ih _

/-- A text that is open after a byte that is no mark is not empty. -/
theorem pendingAfter_ne_nil (hb : b ≠ mark) (o : Option Bytes) (u : Bytes) :
    pendingAfter o (u ++ [b]) ≠ some [] := by
  induction u generalizing o with
  | nil =>
    cases o with
    | none =>
      show (if b = mark then some [] else none) ≠ some []
      simp [hb]
    | some w =>
      show (if b = mark then none else some (w ++ [b])) ≠ some []
      simp [hb]
  | cons a u ih =>
    cases o with
    | none =>
      rw [List.cons_append, pendingAfter_none]
      exact ih _
    | some w =>
      rw [List.cons_append, pendingAfter_some]
      exact ih _

/-- A text that is open and not empty is found when it ends. -/
theorem quotedFrom_ne_nil (hw : w ≠ []) (h : mark ∈ l) : quotedFrom (some w) l ≠ [] := by
  obtain ⟨u, v, rfl, hu⟩ := List.eq_append_cons_of_mem h
  rw [quotedFrom_some_append hu, quotedFrom_close (by simp [hw])]
  exact List.cons_ne_nil _ _

/-- **Nothing is found exactly where nothing is written.** -/
theorem Lexed.quoted_eq_nil_iff (h : Lexed l) : quoted l = [] ↔ Wordless l := by
  constructor
  · intro hq
    induction h with
    | nil => exact .nil
    | other hb _ ih =>
      refine .other hb (ih ?_)
      rw [quoted, quotedFrom_none, if_neg hb] at hq
      exact hq
    | @text c l hc _ ih =>
      -- a string that is not empty begins with another byte, and there is a mark behind it
      have hfound : ∀ {b : UInt8} {c : Bytes}, b ≠ mark → quoted (literal (b :: c) ++ l) ≠ [] := by
        intro b c hb
        rw [quoted, literal, List.cons_append, quotedFrom_open, List.cons_append, List.cons_append, quotedFrom_some,
          if_neg hb]
        exact quotedFrom_ne_nil (by simp) (by simp)
      cases hc with
      | nil =>
        rw [quoted, literal, List.nil_append, List.cons_append, List.singleton_append, quotedFrom_empty] at hq
        exact .empty (ih hq)
      | plain hb _ => exact absurd hq (hfound hb.2.1)
      | escape _ _ | code _ _ _ _ _ => exact absurd hq (hfound (by decide))
  · intro hw
    clear h
    induction hw with
    | nil => rfl
    | other hb _ ih =>
      rw [quoted, quotedFrom_none, if_neg hb]
      exact ih
    | empty _ ih =>
      rw [quoted, quotedFrom_empty]
      exact ih

end Soroban.JsonText
