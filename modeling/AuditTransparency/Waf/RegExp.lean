/-
  `RegExp` objects of JavaScript, as `test` sees them.

  A text is a list of code units.  An expression is its matcher, which is given a text and an index, and returns
  the index behind the match.  `lastIndex` is not a part of a `RegExp` here: it is given to `test`, which returns
  it as it is afterwards.

  * `test_snd_of_not_stateful`: without the flags g and y, `lastIndex` is kept;
  * `test_snd_of_miss`: a search from 0 that finds nothing keeps it, too.

  `Expression` are expressions without captures, under the flag i.
-/
import Mathlib.Data.Nat.Notation
import Mathlib.Data.List.Basic

/-- The code units of a text. -/
abbrev RegExp.Text := List ℕ

structure RegExp where
  matcher : RegExp.Text → ℕ → Option ℕ
  global : Bool := false
  sticky : Bool := false
  unicode : Bool := false

namespace RegExp

/-- Of a text without surrogates. -/
def codes (s : String) : Text := s.toList.map Char.toNat

/-! ## `test` -/

def stateful (r : RegExp) : Bool := r.global || r.sticky

/-- A pair of surrogates is one character. -/
def paired (s : Text) (i : ℕ) : Bool :=
  match s[i]?, s[i + 1]? with
  | some a, some b => decide ((0xD800 ≤ a ∧ a ≤ 0xDBFF) ∧ 0xDC00 ≤ b ∧ b ≤ 0xDFFF)
  | _, _ => false

/-- `AdvanceStringIndex` -/
def advance (r : RegExp) (s : Text) (i : ℕ) : ℕ := if r.unicode && paired s i then i + 2 else i + 1

/-- The search from an index on; `k` is above the number of the indices left. -/
def search (r : RegExp) (s : Text) : ℕ → ℕ → Option ℕ
  | 0, _ => none
  | k + 1, i =>
    if s.length < i then none
    else
      match r.matcher s i with
      | some e => some e
      | none => if r.sticky then none else search r s k (r.advance s i)

def exec (r : RegExp) (lastIndex : ℕ) (s : Text) : Option ℕ :=
  let start := if r.stateful then lastIndex else 0
  r.search s (s.length + 1) start

/-- Whether there is a match, and the `lastIndex` after it. -/
def test (r : RegExp) (lastIndex : ℕ) (s : Text) : Bool × ℕ :=
  match r.exec lastIndex s with
  | some e => (true, if r.stateful then e else lastIndex)
  | none => (false, if r.stateful then 0 else lastIndex)

variable {r : RegExp}

theorem test_fst (r : RegExp) (l : ℕ) (s : Text) : (r.test l s).1 = (r.exec l s).isSome := by
  rw [test]
  cases r.exec l s <;> rfl

theorem test_snd_of_not_stateful (hr : r.stateful = false) (l : ℕ) (s : Text) : (r.test l s).2 = l := by
  rw [test, hr]
  cases r.exec l s <;> rfl

theorem test_snd_of_miss {s : Text} (h : (r.test 0 s).1 = false) : (r.test 0 s).2 = 0 := by
  rw [test_fst] at h
  rw [test]
  cases he : r.exec 0 s with
  | none => exact ite_self 0
  | some e =>
    rw [he] at h
    exact absurd h nofun

/-! ## Expressions -/

inductive Expression where
  | empty
  | char (p : ℕ → Bool)
  | boundary
  | seq (a b : Expression)
  | alt (a b : Expression)
  | star (a : Expression)

namespace Expression

def isWordChar (c : ℕ) : Bool :=
  decide ((48 ≤ c ∧ c ≤ 57) ∨ (65 ≤ c ∧ c ≤ 90) ∨ c = 95 ∨ (97 ≤ c ∧ c ≤ 122))

/-- Whether there is a word character at an index. -/
def wordAt (s : Text) (i : ℕ) : Bool := (s[i]?.map isWordChar).getD false

/-- Where the repetitions of a match end, the longest first; one that is empty is not repeated. -/
def repeats (f : ℕ → List ℕ) : ℕ → ℕ → List ℕ
  | 0, i => [i]
  | k + 1, i => ((f i).filter fun j => decide (i < j)).flatMap (repeats f k) ++ [i]

/-- Where the matches from an index end, in the order in which they are tried. -/
def ends (s : Text) : Expression → ℕ → List ℕ
  | empty, i => [i]
  | char p, i => if (s[i]?.map p).getD false then [i + 1] else []
  | boundary, i => if (decide (0 < i) && wordAt s (i - 1)) = wordAt s i then [] else [i]
  | seq a b, i => (ends s a i).flatMap (ends s b)
  | alt a b, i => ends s a i ++ ends s b i
  | star a, i => repeats (ends s a) (s.length - i) i

def toRegExp (a : Expression) : RegExp where
  matcher s i := (a.ends s i).head?

def plus (a : Expression) : Expression := seq a (star a)

/-- An upper case letter is its lower case. -/
def foldCase (c : ℕ) : ℕ := if 65 ≤ c ∧ c ≤ 90 then c + 32 else c

/-- A text as it stands in an expression, under the flag i. -/
def literal (s : String) : Expression :=
  (codes s).foldr (fun c a => seq (char fun d => foldCase d == foldCase c) a) empty

def anyOf (l : List String) : Expression :=
  match l with
  | [] => char fun _ => false
  | [s] => literal s
  | s :: l => alt (literal s) (anyOf l)

/-- `\s` -/
def isSpace (c : ℕ) : Bool :=
  decide (c ∈ [9, 10, 11, 12, 13, 32, 0xA0, 0x1680, 0x2028, 0x2029, 0x202F, 0x205F, 0x3000, 0xFEFF] ∨
    (0x2000 ≤ c ∧ c ≤ 0x200A))

def space : Expression := char isSpace

/-- `.` -/
def dot : Expression := char fun c => decide (c ∉ [10, 13, 0x2028, 0x2029])

end Expression

end RegExp
