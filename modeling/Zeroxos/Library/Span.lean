import Mathlib.Order.Interval.Finset.Nat

/-!
# Spans

Regions of memory, free nodes and live blocks are all the same thing: the cells from a base up to
an end. Spans can be apart by a chosen gap; apart at all means disjoint, and apart by one cell means
that no longer span can bridge the two.
-/

namespace Zeroxos

/-- The cells `base, …, base + len - 1`. -/
structure Span where
  base : ℕ
  len : ℕ
deriving DecidableEq, Repr

namespace Span

variable {a b c : Span} {gap p : ℕ}

/-- The cells of a span. -/
def cells (a : Span) : Finset ℕ := Finset.Ico a.base (a.base + a.len)

/-- Two spans with at least `gap` cells between them. An empty span is apart from every other. -/
def Apart (gap : ℕ) (a b : Span) : Prop :=
  a.len = 0 ∨ b.len = 0 ∨ a.base + a.len + gap ≤ b.base ∨ b.base + b.len + gap ≤ a.base

instance (gap : ℕ) (a b : Span) : Decidable (a.Apart gap b) := inferInstanceAs (Decidable (_ ∨ _))

/-- `a` lies inside `b`. -/
def Within (a b : Span) : Prop := b.base ≤ a.base ∧ a.base + a.len ≤ b.base + b.len

instance (a b : Span) : Decidable (a.Within b) := inferInstanceAs (Decidable (_ ∧ _))

theorem mem_cells : p ∈ a.cells ↔ a.base ≤ p ∧ p < a.base + a.len := Finset.mem_Ico

@[simp] theorem card_cells (a : Span) : a.cells.card = a.len := by
  rw [cells, Nat.card_Ico, Nat.add_sub_cancel_left]

theorem Apart.disjoint (h : a.Apart gap b) : Disjoint a.cells b.cells := by
  rw [Finset.disjoint_left]
  intro p hp hq
  rw [mem_cells] at hp hq
  unfold Apart at h
  omega

theorem apart_of_disjoint (h : Disjoint a.cells b.cells) : a.Apart 0 b := by
  by_contra hapart
  unfold Apart at hapart
  push Not at hapart
  have hmem : max a.base b.base ∈ a.cells ∧ max a.base b.base ∈ b.cells := by
    rw [mem_cells, mem_cells]
    omega
  exact Finset.disjoint_left.mp h hmem.1 hmem.2

theorem Apart.symm (h : a.Apart gap b) : b.Apart gap a := by
  unfold Apart at *
  omega

theorem Apart.of_within (h : a.Apart gap b) (hc : c.Within b) : a.Apart gap c := by
  unfold Apart at *
  unfold Within at hc
  omega

theorem Apart.of_within_left (h : a.Apart gap b) (hc : c.Within a) : c.Apart gap b :=
  (h.symm.of_within hc).symm

theorem Within.trans (hab : a.Within b) (hbc : b.Within c) : a.Within c :=
  ⟨hbc.1.trans hab.1, hab.2.trans hbc.2⟩

theorem Within.cells_subset (h : a.Within b) : a.cells ⊆ b.cells := by
  intro p hp
  rw [mem_cells] at hp ⊢
  exact ⟨h.1.trans hp.1, hp.2.trans_le h.2⟩

theorem cells_val_cut {base n m : ℕ} :
    (⟨base, n + m⟩ : Span).cells.val
      = (⟨base, n⟩ : Span).cells.val + (⟨base + n, m⟩ : Span).cells.val := by
  rw [cells, cells, cells, ← Finset.disjUnion_val _ _ (Finset.Ico_disjoint_Ico_consecutive _ _ _)]
  congr 1
  rw [Finset.disjUnion_eq_union, ← add_assoc,
    Finset.Ico_union_Ico_eq_Ico (Nat.le_add_right _ _) (Nat.le_add_right _ _)]

end Span

end Zeroxos
