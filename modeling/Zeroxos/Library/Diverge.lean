import Mathlib.Data.List.Basic
import Mathlib.Tactic.Common

/-!
# Texts that agree or part

A program that writes a text piece by piece, run in two situations, writes the same text in both or
two texts that part at some place: up to there they are the same, and there they differ. Texts that
part can never be made the same again, whatever is written behind them, which is not true of texts
that are only different.

`Alike P` is the contract of one piece: the two texts are the same when `P` holds, and part when it
does not. Pieces are put together by `append` and `join`, and for the whole text `iff` says that it
is the same exactly when every piece meets its condition.
-/

namespace Zeroxos

variable {α : Type*} {a b c : α} {s t u v w x y : List α}

/-- The two lists have a common beginning, behind which both go on, with different elements. -/
inductive Diverge : List α → List α → Prop
  | here {a b : α} {s t : List α} (h : a ≠ b) : Diverge (a :: s) (b :: t)
  | cons {s t : List α} (a : α) (h : Diverge s t) : Diverge (a :: s) (a :: t)

namespace Diverge

theorem ne (h : Diverge s t) : s ≠ t := by
  induction h with
  | here h => exact fun heq ↦ h (List.cons.inj heq).1
  | cons a _ ih => exact fun heq ↦ ih (List.cons.inj heq).2

theorem symm (h : Diverge s t) : Diverge t s := by
  induction h with
  | here h => exact .here h.symm
  | cons a _ ih => exact .cons a ih

theorem ne_nil (h : Diverge s t) : s ≠ [] ∧ t ≠ [] := by
  cases h with
  | here => exact ⟨List.cons_ne_nil _ _, List.cons_ne_nil _ _⟩
  | cons => exact ⟨List.cons_ne_nil _ _, List.cons_ne_nil _ _⟩

theorem append (h : Diverge s t) (x y : List α) : Diverge (s ++ x) (t ++ y) := by
  induction h with
  | here h => exact .here h
  | cons a _ ih => exact .cons a ih

theorem prepend (p : List α) (h : Diverge s t) : Diverge (p ++ s) (p ++ t) := by
  induction p with
  | nil => exact h
  | cons a p ih => exact .cons a ih

/-- Different words in front of a separator that is in neither. -/
theorem of_separator (hs : c ∉ s) (ht : c ∉ t) (hne : s ≠ t) :
    Diverge (s ++ c :: x) (t ++ c :: y) := by
  induction s generalizing t with
  | nil =>
    cases t with
    | nil => exact absurd rfl hne
    | cons b t => exact .here fun h ↦ ht (h ▸ List.mem_cons_self)
  | cons a s ih =>
    cases t with
    | nil => exact .here fun h ↦ hs (h ▸ List.mem_cons_self)
    | cons b t =>
      by_cases hab : a = b
      · subst hab
        refine .cons a (ih (fun h ↦ hs (List.mem_cons_of_mem _ h))
          (fun h ↦ ht (List.mem_cons_of_mem _ h)) fun h ↦ hne (h ▸ rfl))
      · exact .here hab

/-- A word, with and without another in front of it, when a separator that is not in the other
follows the second. -/
theorem of_front (hw : w ≠ []) (hc : c ∉ w) : Diverge (w ++ s ++ x) (s ++ c :: y) := by
  induction s generalizing w with
  | nil =>
    cases w with
    | nil => exact absurd rfl hw
    | cons a w => exact .here fun h ↦ hc (h ▸ List.mem_cons_self)
  | cons b s ih =>
    cases w with
    | nil => exact absurd rfl hw
    | cons a w =>
      by_cases hab : a = b
      · -- the first character of the other word comes round to its end
        subst hab
        rw [List.mem_cons, not_or] at hc
        have hrest : Diverge (w ++ [a] ++ s ++ x) (s ++ c :: y) := by
          refine ih (List.append_ne_nil_of_right_ne_nil _ (List.cons_ne_nil _ _)) fun h ↦ ?_
          rcases List.mem_append.mp h with h | h
          · exact hc.2 h
          · exact hc.1 (List.mem_singleton.mp h)
        rw [List.append_assoc w] at hrest
        exact .cons a hrest
      · exact .here hab

end Diverge

/-! ## Two runs -/

/-- Two texts that are the same if `P`, and part if not. -/
def Alike (P : Prop) (s t : String) : Prop :=
  P ∧ s = t ∨ ¬P ∧ Diverge s.toList t.toList

namespace Alike

variable {P Q : Prop} {s s' t t' : String}

theorem iff (h : Alike P s t) : s = t ↔ P := by
  rcases h with ⟨hP, heq⟩ | ⟨hP, hdiv⟩
  · exact iff_of_true heq hP
  · exact iff_of_false (fun heq ↦ hdiv.ne (congrArg String.toList heq)) hP

theorem symm (h : Alike P s t) : Alike P t s :=
  h.imp (fun ⟨hP, heq⟩ ↦ ⟨hP, heq.symm⟩) fun ⟨hP, hdiv⟩ ↦ ⟨hP, hdiv.symm⟩

theorem congr (h : Alike P s t) (hPQ : P ↔ Q) : Alike Q s t := by
  rwa [Alike, ← hPQ]

theorem same (s : String) (hP : P) : Alike P s s := .inl ⟨hP, rfl⟩

theorem of_diverge (hP : ¬P) (h : Diverge s.toList t.toList) : Alike P s t := .inr ⟨hP, h⟩

/-- **Two pieces.** -/
theorem append (h : Alike P s t) (h' : Alike Q s' t') : Alike (P ∧ Q) (s ++ s') (t ++ t') := by
  rw [Alike, String.toList_append, String.toList_append]
  rcases h with ⟨hP, rfl⟩ | ⟨hP, hdiv⟩
  · rcases h' with ⟨hQ, rfl⟩ | ⟨hQ, hdiv⟩
    · exact .inl ⟨⟨hP, hQ⟩, rfl⟩
    · exact .inr ⟨fun h ↦ hQ h.2, hdiv.prepend _⟩
  · exact .inr ⟨fun h ↦ hP h.1, hdiv.append _ _⟩

theorem append_same (h : Alike P s t) (u : String) : Alike P (s ++ u) (t ++ u) :=
  (h.append (same u trivial)).congr (iff_of_eq (and_true P))

theorem same_append (u : String) (h : Alike P s t) : Alike P (u ++ s) (u ++ t) :=
  ((same u trivial).append h).congr (iff_of_eq (true_and P))

end Alike

end Zeroxos
