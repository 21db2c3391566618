import Mathlib.Data.List.Basic
import Mathlib.Order.Lattice
import Mathlib.Tactic.Common

/-!
# Operators of several levels

A row of operands with operators between them can be bracketed in many ways. When every operator has
a level, the loosest the highest, and operators of one level go to the left, exactly one of the
trees with the row is grouped as it should be. It is built from the left, by `push`: an operator
takes as its left operand as much of the tree as binds no looser than it does.
-/

namespace Zeroxos

variable {ω α β L : Type*}

/-- A row of operands with operators between them, bracketed. -/
inductive InfixTree (ω α : Type*)
  | leaf (a : α)
  | node (op : ω) (left right : InfixTree ω α)

namespace InfixTree

/-! ## Rows -/

/-- The operand that comes first. -/
def first : InfixTree ω α → α
  | leaf a => a
  | node _ left _ => left.first

/-- The operators, in their order, each with the operand behind it. -/
def rest : InfixTree ω α → List (ω × α)
  | leaf _ => []
  | node op left right => left.rest ++ (op, right.first) :: right.rest

/-- The value of a tree. -/
def eval (leafVal : α → β) (nodeVal : ω → β → β → β) : InfixTree ω α → β
  | leaf a => leafVal a
  | node op left right => nodeVal op (left.eval leafVal nodeVal) (right.eval leafVal nodeVal)

/-- The tree with other operands. -/
def map (f : α → β) : InfixTree ω α → InfixTree ω β
  | leaf a => leaf (f a)
  | node op left right => node op (left.map f) (right.map f)

theorem eval_map {γ : Type*} (f : α → β) (leafVal : β → γ) (nodeVal : ω → γ → γ → γ)
    (t : InfixTree ω α) : (t.map f).eval leafVal nodeVal = t.eval (leafVal ∘ f) nodeVal := by
  induction t with
  | leaf a => rfl
  | node op left right ihl ihr => rw [map, eval, eval, ihl, ihr]

/-! ## Grouping -/

/-- The operator at the root, if there is one. -/
def Root (p : ω → Prop) : InfixTree ω α → Prop
  | leaf _ => True
  | node op _ _ => p op

/-- Every operand. -/
def All (p : α → Prop) : InfixTree ω α → Prop
  | leaf a => p a
  | node _ left right => left.All p ∧ right.All p

theorem Root.imp {p q : ω → Prop} (h : ∀ op, p op → q op) {t : InfixTree ω α} (ht : t.Root p) :
    t.Root q := by
  cases t with
  | leaf a => trivial
  | node op left right => exact h op ht

section Level

variable [LinearOrder L] (level : ω → L)

/-- The left operand of an operator binds no looser than the operator, and the right one tighter. -/
def LeftGrouped : InfixTree ω α → Prop
  | leaf _ => True
  | node op left right => (left.Root (level · ≤ level op) ∧ right.Root (level · < level op)) ∧
    left.LeftGrouped ∧ right.LeftGrouped

/-- An operator and an operand behind the row. -/
def push (op : ω) (a : α) : InfixTree ω α → InfixTree ω α
  | leaf b => node op (leaf b) (leaf a)
  | node op' left right =>
    if level op' ≤ level op then node op (node op' left right) (leaf a)
    else node op' left (right.push op a)

/-- The operators of a row, pushed one after the other. -/
def pushes (t : InfixTree ω α) (row : List (ω × α)) : InfixTree ω α :=
  row.foldl (fun t p ↦ t.push level p.1 p.2) t

variable {level} {op : ω} {a : α} {t t' : InfixTree ω α}

theorem push_of_root (h : t.Root (level · ≤ level op)) :
    t.push level op a = node op t (leaf a) := by
  cases t with
  | leaf b => rfl
  | node op' left right => exact if_pos h

theorem root_push {p : ω → Prop} (hop : p op) (ht : t.Root p) : (t.push level op a).Root p := by
  cases t with
  | leaf b => exact hop
  | node op' left right =>
    rw [push]
    split_ifs
    · exact hop
    · exact ht

theorem LeftGrouped.push (h : t.LeftGrouped level) : (t.push level op a).LeftGrouped level := by
  induction t with
  | leaf b => exact ⟨⟨trivial, trivial⟩, trivial, trivial⟩
  | node op' left right _ ih =>
    rw [InfixTree.push]
    split_ifs with hle
    · exact ⟨⟨hle, trivial⟩, h, trivial⟩
    · exact ⟨⟨h.1.1, root_push (not_le.mp hle) h.1.2⟩, h.2.1, ih h.2.2⟩

theorem All.push {p : α → Prop} (ha : p a) (ht : t.All p) : (t.push level op a).All p := by
  induction t with
  | leaf b => exact ⟨ht, ha⟩
  | node op' left right _ ih =>
    rw [InfixTree.push]
    split_ifs
    · exact ⟨ht, ha⟩
    · exact ⟨ht.1, ih ht.2⟩

theorem first_push : (t.push level op a).first = t.first := by
  cases t with
  | leaf b => rfl
  | node op' left right =>
    rw [push]
    split_ifs <;> rfl

theorem rest_push : (t.push level op a).rest = t.rest ++ [(op, a)] := by
  induction t with
  | leaf b => rfl
  | node op' left right _ ih =>
    rw [push]
    split_ifs
    · rfl
    · rw [rest, rest, ih, first_push, List.append_assoc, List.cons_append]

theorem map_push (f : α → β) : (t.push level op a).map f = (t.map f).push level op (f a) := by
  induction t with
  | leaf b => rfl
  | node op' left right _ ih =>
    rw [push, map, push]
    split_ifs
    · rfl
    · rw [map, ih]

theorem LeftGrouped.lt {x : L} (h : t.LeftGrouped level) (hroot : t.Root (level · < x)) :
    ∀ p ∈ t.rest, level p.1 < x := by
  induction t with
  | leaf b => exact List.forall_mem_nil _
  | node op' left right ihl ihr =>
    have hop : level op' < x := hroot
    refine List.forall_mem_append.mpr ⟨?_, List.forall_mem_cons.mpr ⟨hop, ?_⟩⟩
    · exact ihl h.2.1 (h.1.1.imp fun _ hle ↦ lt_of_le_of_lt hle hop)
    · exact ihr h.2.2 (h.1.2.imp fun _ hlt ↦ lt_trans hlt hop)

/-- Operators that bind tighter than the one at the root go to its right operand. -/
theorem pushes_node {left right : InfixTree ω α} {row : List (ω × α)}
    (h : ∀ p ∈ row, level p.1 < level op) :
    (node op left right).pushes level row = node op left (right.pushes level row) := by
  induction row generalizing right with
  | nil => rfl
  | cons p row ih =>
    obtain ⟨hp, hrow⟩ := List.forall_mem_cons.mp h
    have hpush : (node op left right).push level p.1 p.2
        = node op left (right.push level p.1 p.2) := if_neg (not_le.mpr hp)
    rw [pushes, List.foldl_cons, hpush]
    exact ih hrow

/-- **A grouped tree** is what is built from its row. -/
theorem LeftGrouped.pushes_rest (h : t.LeftGrouped level) :
    (leaf t.first).pushes level t.rest = t := by
  induction t with
  | leaf b => rfl
  | node op' left right ihl ihr =>
    have hleft : (leaf left.first).pushes level left.rest = left := ihl h.2.1
    have hright : (leaf right.first).pushes level right.rest = right := ihr h.2.2
    rw [pushes] at hleft
    rw [first, rest, pushes, List.foldl_append, hleft, List.foldl_cons, push_of_root h.1.1]
    exact (pushes_node (h.2.2.lt h.1.2)).trans (congrArg _ hright)

/-- **One tree.** Two grouped trees with the same row are the same. -/
theorem LeftGrouped.unique (h : t.LeftGrouped level) (h' : t'.LeftGrouped level)
    (hfirst : t.first = t'.first) (hrest : t.rest = t'.rest) : t = t' := by
  rw [← h.pushes_rest, ← h'.pushes_rest, hfirst, hrest]

end Level

end InfixTree

end Zeroxos
