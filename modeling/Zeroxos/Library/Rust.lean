import Mathlib.Algebra.Order.Group.Nat
import Mathlib.Data.List.Basic
import Mathlib.Data.Nat.Bitwise
import Mathlib.Tactic.Ring

/-!
# The pieces of Rust the models share

A 64-bit machine word is kept as the natural number it denotes, and the arithmetic that a release
build performs on it, which wraps, is spelled out with an explicit reduction modulo `2 ^ 64`. Each
operation comes with the lemma that it is ordinary arithmetic when nothing overflows; those lemmas
are the only way the proofs above use the operations.

A `Vec` is a list, with its end on the right. A call that may panic returns in `Except Panic`.
-/

namespace Zeroxos

/-- Why a call panicked. -/
inductive Panic
  /-- An index past the end of an array. -/
  | indexOutOfBounds
  /-- `unwrap` on `None`. -/
  | unwrapNone
deriving DecidableEq, Repr

/-! ## Words -/

/-- The number of values a 64-bit word has. -/
def wordSize : ℕ := 2 ^ 64

/-- `a + b` on 64-bit words. -/
def wadd (a b : ℕ) : ℕ := (a + b) % wordSize

/-- `a - b` on 64-bit words. -/
def wsub (a b : ℕ) : ℕ := (a + (wordSize - b % wordSize)) % wordSize

/-- `!a` on 64-bit words. -/
def wnot (a : ℕ) : ℕ := wordSize - 1 - a

theorem wadd_of_lt {a b : ℕ} (h : a + b < wordSize) : wadd a b = a + b := Nat.mod_eq_of_lt h

theorem wsub_of_le {a b : ℕ} (hba : b ≤ a) (ha : a < wordSize) : wsub a b = a - b := by
  rw [wsub, Nat.mod_eq_of_lt (lt_of_le_of_lt hba ha)]
  rw [wordSize] at *
  omega

/-! ## Vectors -/

section Vec

variable {α : Type*}

/-- No `Vec` is longer: its buffer has at most `isize::MAX` bytes. -/
def vecCapacity : ℕ := 2 ^ 63 - 1

/-- `Vec::push`, which does not return when the buffer cannot grow. -/
def push (x : α) (l : List α) : Option (List α) :=
  if l.length < vecCapacity then some (l ++ [x]) else none

theorem push_eq_some {l l' : List α} {x : α} :
    push x l = some l' ↔ l.length < vecCapacity ∧ l' = l ++ [x] := by
  rw [push]
  split_ifs with h
  · simp [h, eq_comm]
  · simp [h]

/-- `Vec::swap_remove`: the last element takes the place of the one removed. -/
def swapRemove (l : List α) (i : ℕ) : List α :=
  match l.getLast? with
  | none => l
  | some x => (l.set i x).dropLast

theorem cons_swapRemove_perm {l : List α} {i : ℕ} (h : i < l.length) :
    (l[i] :: swapRemove l i).Perm l := by
  obtain ⟨xs, x, rfl⟩ : ∃ xs x, l = xs ++ [x] := by
    rcases List.eq_nil_or_concat l with rfl | ⟨xs, x, rfl⟩
    · exact absurd h (Nat.not_lt_zero _)
    · exact ⟨xs, x, List.concat_eq_append⟩
  rw [swapRemove, List.getLast?_concat]
  dsimp only
  rw [List.length_append, List.length_singleton] at h
  rcases Nat.lt_or_ge i xs.length with hi | hi
  · have hset : ((xs ++ [x]).set i x).dropLast = xs.take i ++ x :: xs.drop (i + 1) := by
      rw [List.set_append_left _ _ hi, List.dropLast_concat, List.set_eq_take_append_cons_drop,
        if_pos hi]
    have hxs : xs = xs.take i ++ xs[i] :: xs.drop (i + 1) := by
      rw [List.getElem_cons_drop, List.take_append_drop]
    rw [hset, List.getElem_append_left hi]
    calc (xs[i] :: (xs.take i ++ x :: xs.drop (i + 1))).Perm
          (x :: (xs.take i ++ xs[i] :: xs.drop (i + 1))) :=
            ((List.perm_middle.cons _).trans (List.Perm.swap _ _ _)).trans
              (List.perm_middle.symm.cons _)
      _ = x :: xs := by rw [← hxs]
      List.Perm _ (xs ++ [x]) := (List.perm_append_singleton x xs).symm
  · obtain rfl : i = xs.length := by omega
    have hset : ((xs ++ [x]).set xs.length x).dropLast = xs := by
      rw [List.set_append_right _ _ (le_refl _), Nat.sub_self, List.set_cons_zero,
        List.dropLast_concat]
    rw [hset, List.getElem_append_right (le_refl _)]
    simpa using (List.perm_append_singleton x xs).symm

theorem cons_dropLast_perm {l : List α} {x : α} (h : l.getLast? = some x) :
    (x :: l.dropLast).Perm l := by
  rcases List.eq_nil_or_concat l with rfl | ⟨xs, y, rfl⟩
  · exact absurd h (by simp)
  · rw [List.concat_eq_append] at h ⊢
    rw [List.getLast?_concat, Option.some_inj] at h
    rw [List.dropLast_concat, h]
    exact (List.perm_append_singleton x xs).symm

end Vec

end Zeroxos
