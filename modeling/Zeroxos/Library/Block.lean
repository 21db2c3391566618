import Mathlib.Data.Finset.Interval
import Mathlib.Data.Nat.Bitwise
import Mathlib.Order.Interval.Finset.Nat
import Mathlib.Tactic.Linarith
import Mathlib.Tactic.Ring

/-!
# Dyadic blocks

A block of order `o` is a run of `2 ^ o` consecutive cells, and it is *aligned* when its first cell
is a multiple of `2 ^ o`. Aligned blocks form a laminar family: two of them are either disjoint or
nested. Every argument about splitting and merging buddies is an argument about this family, so
the family is developed here on its own, over bare natural numbers.

The workhorse is `mem_cells_iff_div`: membership in an aligned block is one equation between
quotients. Laminarity and the geometry of a block, its buddy and its parent all follow from it
without any interval arithmetic.
-/

namespace Zeroxos

/-- A run of `2 ^ order` cells starting at `base`. -/
structure Block where
  /-- The first cell. -/
  base : ℕ
  /-- The binary logarithm of the number of cells. -/
  order : ℕ
deriving DecidableEq, Repr

namespace Block

/-- The cells of a block. -/
def cells (b : Block) : Finset ℕ := Finset.Ico b.base (b.base + 2 ^ b.order)

/-- The first cell is a multiple of the size. -/
def Aligned (b : Block) : Prop := 2 ^ b.order ∣ b.base

instance (b : Block) : Decidable b.Aligned := inferInstanceAs (Decidable (_ ∣ _))

/-- The other half of the enclosing block of the next order. -/
def buddy (b : Block) : Block := ⟨b.base ^^^ 2 ^ b.order, b.order⟩

/-- The enclosing aligned block of the next order. -/
def parent (b : Block) : Block :=
  ⟨b.base / 2 ^ (b.order + 1) * 2 ^ (b.order + 1), b.order + 1⟩

@[simp] theorem buddy_order (b : Block) : b.buddy.order = b.order := rfl

@[simp] theorem parent_order (b : Block) : b.parent.order = b.order + 1 := rfl

@[simp] theorem mem_cells {b : Block} {p : ℕ} :
    p ∈ b.cells ↔ b.base ≤ p ∧ p < b.base + 2 ^ b.order := Finset.mem_Ico

@[simp] theorem card_cells (b : Block) : b.cells.card = 2 ^ b.order := by
  rw [cells, Nat.card_Ico, Nat.add_sub_cancel_left]

theorem base_mem_cells (b : Block) : b.base ∈ b.cells :=
  mem_cells.mpr ⟨le_refl _, Nat.lt_add_of_pos_right (Nat.two_pow_pos _)⟩

theorem aligned_parent (b : Block) : b.parent.Aligned := Nat.dvd_mul_left _ _

/-! ## Membership by quotient -/

theorem mem_cells_iff_div {b : Block} (hb : b.Aligned) {p : ℕ} :
    p ∈ b.cells ↔ p / 2 ^ b.order = b.base / 2 ^ b.order := by
  obtain ⟨k, hk⟩ := hb
  have hpos : 0 < 2 ^ b.order := Nat.two_pow_pos _
  rw [mem_cells, hk, Nat.mul_div_cancel_left k hpos, Nat.div_eq_iff hpos]
  constructor
  · rintro ⟨h1, h2⟩
    rw [mul_comm k]
    omega
  · rintro ⟨h1, h2⟩
    rw [mul_comm k] at h1 h2
    omega

theorem mem_cells_of_mem {a b : Block} (ha : a.Aligned) (hb : b.Aligned) (hle : a.order ≤ b.order)
    {p q : ℕ} (hpa : p ∈ a.cells) (hpb : p ∈ b.cells) (hqa : q ∈ a.cells) : q ∈ b.cells := by
  rw [mem_cells_iff_div ha] at hpa hqa
  rw [mem_cells_iff_div hb] at hpb ⊢
  obtain ⟨d, hd⟩ := Nat.exists_eq_add_of_le hle
  rw [← hpb, hd, pow_add, ← Nat.div_div_eq_div_mul, ← Nat.div_div_eq_div_mul, hpa, hqa]

/-- **Laminarity.** Of two aligned blocks that meet, the smaller lies inside the larger. -/
theorem cells_subset_of_mem {a b : Block} (ha : a.Aligned) (hb : b.Aligned)
    (hle : a.order ≤ b.order) {p : ℕ} (hpa : p ∈ a.cells) (hpb : p ∈ b.cells) :
    a.cells ⊆ b.cells := fun _ hq ↦ mem_cells_of_mem ha hb hle hpa hpb hq

theorem eq_of_mem_of_order_eq {a b : Block} (ha : a.Aligned) (hb : b.Aligned)
    (horder : a.order = b.order) {p : ℕ} (hpa : p ∈ a.cells) (hpb : p ∈ b.cells) : a = b := by
  have hab := (mem_cells.mp (cells_subset_of_mem ha hb (le_of_eq horder) hpa hpb
    a.base_mem_cells)).1
  have hba := (mem_cells.mp (cells_subset_of_mem hb ha (le_of_eq horder.symm) hpb hpa
    b.base_mem_cells)).1
  cases a
  cases b
  simp only [mk.injEq] at *
  omega

/-! ## A block and its parent -/

theorem cells_subset_parent {b : Block} (hb : b.Aligned) : b.cells ⊆ b.parent.cells := by
  refine cells_subset_of_mem hb b.aligned_parent (Nat.le_succ _) b.base_mem_cells ?_
  rw [mem_cells_iff_div b.aligned_parent, parent_order, parent,
    Nat.mul_div_cancel _ (Nat.two_pow_pos _)]

/-- Whatever aligned block properly contains a cell of `b` at a larger order contains the whole
parent of `b`. -/
theorem parent_subset_of_mem {a b : Block} (ha : a.Aligned) (hb : b.Aligned)
    (hlt : a.order < b.order) {p : ℕ} (hpa : p ∈ a.cells) (hpb : p ∈ b.cells) :
    a.parent.cells ⊆ b.cells :=
  cells_subset_of_mem a.aligned_parent hb hlt (cells_subset_parent ha hpa) hpb

/-! ## A block and its buddy -/

theorem buddy_base_eq {b : Block} {k : ℕ} (hk : b.base = 2 ^ b.order * k) :
    b.buddy.base = 2 ^ b.order * (k ^^^ 1) := by
  have h : (k ^^^ 1) <<< b.order = k <<< b.order ^^^ 1 <<< b.order := Nat.shiftLeft_xor_distrib
  rw [Nat.shiftLeft_eq, Nat.shiftLeft_eq, Nat.shiftLeft_eq, one_mul] at h
  rw [buddy, hk, mul_comm _ k, mul_comm _ (k ^^^ 1), h]

theorem aligned_buddy {b : Block} (hb : b.Aligned) : b.buddy.Aligned := by
  obtain ⟨k, hk⟩ := hb
  exact ⟨k ^^^ 1, buddy_base_eq hk⟩

/-- Where an aligned block and its buddy sit inside their parent: one is the lower half and the
other the upper. -/
theorem buddy_cases {b : Block} (hb : b.Aligned) :
    (b.parent.base = b.base ∧ b.buddy.base = b.base + 2 ^ b.order) ∨
      (b.parent.base = b.buddy.base ∧ b.base = b.buddy.base + 2 ^ b.order) := by
  obtain ⟨k, hk⟩ := hb
  have hpos : 0 < 2 ^ b.order := Nat.two_pow_pos _
  have hparent : b.parent.base = 2 ^ b.order * (k / 2 * 2) := by
    have h : b.base / 2 ^ (b.order + 1) = k / 2 := by
      rw [pow_succ, ← Nat.div_div_eq_div_mul, hk, Nat.mul_div_cancel_left _ hpos]
    rw [parent, h, pow_succ]
    ring
  rw [hparent, buddy_base_eq hk, hk]
  rcases Nat.even_or_odd' k with ⟨m, rfl | rfl⟩
  · left
    have hxor : (2 * m) ^^^ 1 = 2 * m + 1 := Nat.xor_one_of_even (even_two_mul m)
    rw [hxor]
    constructor
    · congr 1
      omega
    · ring
  · right
    have hxor : (2 * m + 1) ^^^ 1 = 2 * m := by
      rw [Nat.xor_one_of_odd ⟨m, rfl⟩, Nat.add_sub_cancel]
    rw [hxor]
    constructor
    · congr 1
      omega
    · ring

/-- Merging a block with its buddy starts at the lower of the two. -/
theorem parent_eq_min {b : Block} (hb : b.Aligned) :
    b.parent = ⟨min b.base b.buddy.base, b.order + 1⟩ := by
  have hpos : 0 < 2 ^ b.order := Nat.two_pow_pos _
  have hbase : b.parent.base = min b.base b.buddy.base := by
    rcases buddy_cases hb with ⟨h1, h2⟩ | ⟨h1, h2⟩ <;> omega
  rw [← hbase, ← parent_order]

theorem disjoint_cells_buddy {b : Block} (hb : b.Aligned) : Disjoint b.cells b.buddy.cells := by
  rw [Finset.disjoint_left]
  intro p hp hq
  rw [mem_cells] at hp hq
  rw [buddy_order] at hq
  rcases buddy_cases hb with ⟨-, h⟩ | ⟨-, h⟩ <;> omega

theorem cells_union_buddy {b : Block} (hb : b.Aligned) :
    b.cells ∪ b.buddy.cells = b.parent.cells := by
  ext p
  rw [Finset.mem_union, mem_cells, mem_cells, mem_cells, buddy_order, parent_order, pow_succ]
  rcases buddy_cases hb with ⟨h1, h2⟩ | ⟨h1, h2⟩ <;> omega

theorem parent_buddy {b : Block} (hb : b.Aligned) : b.buddy.parent = b.parent := by
  refine eq_of_mem_of_order_eq (aligned_parent _) (aligned_parent _) rfl
    (cells_subset_parent (aligned_buddy hb) (base_mem_cells _)) ?_
  rw [← cells_union_buddy hb]
  exact Finset.mem_union_right _ (base_mem_cells _)

/-! ## Cells with multiplicity -/

theorem cells_val_add_buddy {b : Block} (hb : b.Aligned) :
    b.cells.val + b.buddy.cells.val = b.parent.cells.val := by
  rw [← cells_union_buddy hb, ← Finset.disjUnion_eq_union _ _ (disjoint_cells_buddy hb)]
  rfl

theorem cells_val_split (f o : ℕ) :
    (⟨f, o⟩ : Block).cells.val + (⟨f + 2 ^ o, o⟩ : Block).cells.val
      = (⟨f, o + 1⟩ : Block).cells.val := by
  have hend : f + 2 ^ (o + 1) = f + 2 ^ o + 2 ^ o := by ring
  calc Multiset.Ico f (f + 2 ^ o) + Multiset.Ico (f + 2 ^ o) (f + 2 ^ o + 2 ^ o)
      = Multiset.Ico f (f + 2 ^ o + 2 ^ o) :=
        Multiset.Ico_add_Ico_eq_Ico (Nat.le_add_right _ _) (Nat.le_add_right _ _)
    _ = Multiset.Ico f (f + 2 ^ (o + 1)) := by rw [hend]

end Block

end Zeroxos
