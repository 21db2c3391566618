import Mathlib.Data.List.Induction
import Mathlib.Tactic.Common

/-!
# Trees in a store

A tree whose nodes live in a store is given by the links alone: `child a i` is the node that entry
`i` of node `a` links to. `walk child r p` follows a path of indices from `r`. The links form a
tree, down to a depth, when no node is at the end of two paths (`IsTree`); this is what makes a
write to one node local.

## The two writes

These are the writes a radix table makes. `IsTree.walk_link` links a fresh, empty node at a free
entry, and exactly one new path appears. `IsTree.walk_of_eq_off` changes a node at the bottom, whose
links no walk reads, and no path changes.
-/

namespace Zeroxos

variable {α ι : Type*} {child child' : α → ι → Option α} {r a b new : α} {p q : List ι} {i : ι}
  {d : ℕ}

/-- Follow a path of indices. -/
def walk (child : α → ι → Option α) (r : α) : List ι → Option α
  | [] => some r
  | i :: p => (child r i).bind fun a ↦ walk child a p

theorem walk_cons : walk child r (i :: p) = (child r i).bind fun a ↦ walk child a p := rfl

theorem walk_append : walk child r (p ++ q) = (walk child r p).bind fun a ↦ walk child a q := by
  induction p generalizing r with
  | nil => rfl
  | cons i p ih =>
    rw [List.cons_append, walk_cons, walk_cons]
    cases child r i with
    | none => rfl
    | some a => exact ih

theorem walk_concat : walk child r (p ++ [i]) = (walk child r p).bind fun a ↦ child a i := by
  rw [walk_append]
  congr 1
  funext a
  rw [walk_cons]
  cases child a i <;> rfl

/-- Along a path that is a tree down to depth `d`, no node is reached twice. -/
def IsTree (child : α → ι → Option α) (r : α) (d : ℕ) : Prop :=
  ∀ ⦃p q a⦄, p.length ≤ d → q.length ≤ d → walk child r p = some a → walk child r q = some a → p = q

namespace IsTree

theorem ne_of_path_ne (h : IsTree child r d) (hp : p.length ≤ d) (hq : q.length ≤ d)
    (ha : walk child r p = some a) (hb : walk child r q = some b) (hne : p ≠ q) : a ≠ b := by
  rintro rfl
  exact hne (h hp hq ha hb)

/-- **A node at the bottom may change.** Its links are not part of any path. -/
theorem walk_of_eq_off (h : IsTree child r d) (hp : p.length = d) (ha : walk child r p = some a)
    (heq : ∀ b, b ≠ a → child' b = child b) (hq : q.length ≤ d) :
    walk child' r q = walk child r q := by
  induction q using List.reverseRecOn with
  | nil => rfl
  | append_singleton q j ih =>
    rw [List.length_append, List.length_singleton] at hq
    rw [walk_concat, walk_concat, ih (by omega)]
    cases hb : walk child r q with
    | none => rfl
    | some b =>
      have hne : b ≠ a := by
        rintro rfl
        have := congrArg List.length (h (by omega) (by omega) hb ha)
        omega
      exact congrFun (heq b hne) j

section Link

variable (h : IsTree child r d) (hp : p.length < d) (ha : walk child r p = some a)
  (hfree : child a i = none) (hfresh : ∀ q, q.length ≤ d → walk child r q ≠ some new)
  (hself : ∀ j, child' new j = none) (hlink : child' a i = some new)
  (hother : ∀ j, j ≠ i → child' a j = child a j) (heq : ∀ b, b ≠ a → b ≠ new → child' b = child b)
include h hp ha hfree hfresh hself hlink hother heq

/-- **A fresh, empty node linked at a free entry**: one new path, the others as they were. -/
theorem walk_link [DecidableEq ι] (hq : q.length ≤ d) :
    walk child' r q = if q = p ++ [i] then some new else walk child r q := by
  induction q using List.reverseRecOn with
  | nil =>
    rw [if_neg (by simp)]
    rfl
  | append_singleton q j ih =>
    rw [List.length_append, List.length_singleton] at hq
    rw [walk_concat, ih (by omega), walk_concat]
    by_cases hqp : q = p ++ [i]
    · -- below the new node there is nothing, before and after
      have hlen : q ++ [j] ≠ p ++ [i] := fun h' ↦ by
        have := congrArg List.length h'
        have := congrArg List.length hqp
        simp only [List.length_append, List.length_singleton] at *
        omega
      rw [if_pos hqp, if_neg hlen, hqp, walk_concat, ha, Option.bind_some, Option.bind_some, hself,
        hfree]
      rfl
    · rw [if_neg hqp]
      cases hb : walk child r q with
      | none =>
        rw [if_neg]
        · rfl
        · intro h'
          obtain ⟨rfl, -⟩ := List.append_inj' h' rfl
          exact Option.some_ne_none a (ha.symm.trans hb)
      | some b =>
        rw [Option.bind_some, Option.bind_some]
        by_cases hba : b = a
        · subst hba
          obtain rfl : q = p := h (by omega) (by omega) hb ha
          by_cases hji : j = i
          · rw [hji, hlink, if_pos rfl]
          · rw [hother j hji, if_neg]
            simpa using hji
        · have hne : b ≠ new := fun hbn ↦ hfresh q (by omega) (hbn ▸ hb)
          rw [heq b hba hne, if_neg]
          intro h'
          obtain ⟨rfl, -⟩ := List.append_inj' h' rfl
          exact hba (Option.some_inj.mp (hb.symm.trans ha))

theorem link [DecidableEq ι] : IsTree child' r d := by
  intro q₁ q₂ b h₁ h₂ hb₁ hb₂
  rw [h.walk_link hp ha hfree hfresh hself hlink hother heq h₁] at hb₁
  rw [h.walk_link hp ha hfree hfresh hself hlink hother heq h₂] at hb₂
  split_ifs at hb₁ hb₂ with hq₁ hq₂ hq₂
  · rw [hq₁, hq₂]
  · exact absurd (hb₂.trans hb₁.symm) (hfresh q₂ h₂)
  · exact absurd (hb₁.trans hb₂.symm) (hfresh q₁ h₁)
  · exact h h₁ h₂ hb₁ hb₂

end Link

end IsTree

end Zeroxos
