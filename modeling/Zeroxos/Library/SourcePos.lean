import Mathlib.Data.List.Basic
import Mathlib.Order.Nat
import Mathlib.Tactic.Common

/-!
# Positions in a text

A position is a line and a column, both counted from 1. A newline ends its line, and any other
character takes one column.
-/

namespace Zeroxos

/-- A line and a column. -/
structure SourcePos where
  line : ℕ
  col : ℕ
deriving DecidableEq, Repr

namespace SourcePos

variable {p : SourcePos} {l l' : List Char} {c : Char}

/-- The position behind a character. -/
def advance (p : SourcePos) (c : Char) : SourcePos :=
  if c = '\n' then ⟨p.line + 1, 1⟩ else ⟨p.line, p.col + 1⟩

/-- The position behind some text. -/
def along (p : SourcePos) (l : List Char) : SourcePos := l.foldl advance p

/-- Where a text begins. -/
def start : SourcePos := ⟨1, 1⟩

@[simp] theorem along_cons : p.along (c :: l) = (p.advance c).along l := rfl

theorem along_append : p.along (l ++ l') = (p.along l).along l' := List.foldl_append

theorem advance_newline : p.advance '\n' = ⟨p.line + 1, 1⟩ := rfl

theorem advance_of_ne (h : c ≠ '\n') : p.advance c = ⟨p.line, p.col + 1⟩ := if_neg h

theorem along_of_noNewline (h : '\n' ∉ l) : p.along l = ⟨p.line, p.col + l.length⟩ := by
  induction l generalizing p with
  | nil => rfl
  | cons c l ih =>
    rw [List.mem_cons, not_or] at h
    rw [along_cons, advance_of_ne (Ne.symm h.1), ih h.2, List.length_cons, Nat.add_right_comm,
      Nat.add_assoc]

end SourcePos

end Zeroxos
