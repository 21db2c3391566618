import Mathlib.Algebra.BigOperators.Group.Multiset.Basic
import Mathlib.Data.Finset.Interval
import Mathlib.Data.Multiset.Bind
import Mathlib.Order.Interval.Finset.Nat

/-!
# Families of sets, counted with multiplicity

An allocator owns a family of pieces and each piece owns some cells. `cover` collects the cells of
the family with multiplicity, so that a cell lost and a cell owned twice are both visible: a family
partitions a set exactly when its cover *is* that set. Splitting or joining pieces rearranges a sum
and leaves the cover alone, which is the whole proof that an allocator keeps a partition.
-/

namespace Zeroxos

variable {α β : Type*} {cells : α → Finset β}

/-- All the cells of a family, with multiplicity. -/
def cover (cells : α → Finset β) (B : Multiset α) : Multiset β := B.bind fun a ↦ (cells a).val

@[simp] theorem cover_zero : cover cells 0 = 0 := Multiset.zero_bind _

@[simp] theorem cover_cons (a : α) (B : Multiset α) :
    cover cells (a ::ₘ B) = (cells a).val + cover cells B := Multiset.cons_bind _ _ _

@[simp] theorem cover_add (B C : Multiset α) :
    cover cells (B + C) = cover cells B + cover cells C := Multiset.add_bind _ _ _

theorem mem_cover {B : Multiset α} {p : β} : p ∈ cover cells B ↔ ∃ a ∈ B, p ∈ cells a :=
  Multiset.mem_bind

theorem card_cover (B : Multiset α) :
    (cover cells B).card = (B.map fun a ↦ (cells a).card).sum := Multiset.card_bind _ _

theorem cover_erase [DecidableEq α] {a : α} {B : Multiset α} (h : a ∈ B) :
    cover cells B = (cells a).val + cover cells (B.erase a) := by
  rw [← cover_cons, Multiset.cons_erase h]

/-- When no cell is counted twice, the pieces are pairwise disjoint. -/
theorem pairwise_disjoint_of_nodup_cover {B : Multiset α} (h : (cover cells B).Nodup) :
    B.Pairwise fun a b ↦ Disjoint (cells a) (cells b) := by
  obtain ⟨l, hl, hp⟩ := (Multiset.nodup_bind.mp h).2
  exact ⟨l, hl, hp.imp fun hab ↦ Finset.disjoint_val.mp hab⟩

theorem notMem_cells_of_pairwise_cons {a b : α} {B : Multiset α} {p : β}
    (h : (a ::ₘ B).Pairwise fun a b ↦ Disjoint (cells a) (cells b)) (hb : b ∈ B)
    (hp : p ∈ cells a) : p ∉ cells b := by
  obtain ⟨l, hl, hpair⟩ := h
  have hnodup : (cover cells (a ::ₘ B)).Nodup :=
    Multiset.nodup_bind.mpr ⟨fun c _ ↦ (cells c).nodup, l, hl,
      hpair.imp fun hab ↦ Finset.disjoint_val.mpr hab⟩
  rw [cover_cons, Multiset.nodup_add] at hnodup
  exact fun hpb ↦ Multiset.disjoint_left.mp hnodup.2.2 hp (mem_cover.mpr ⟨b, hb, hpb⟩)

theorem card_le_of_nodup {m : Multiset ℕ} (lo hi : ℕ) (hnodup : m.Nodup)
    (h : ∀ p ∈ m, lo ≤ p ∧ p < hi) : m.card ≤ hi - lo := by
  have hsub : m.toFinset ⊆ Finset.Ico lo hi := fun p hp ↦
    Finset.mem_Ico.mpr (h p (Multiset.mem_toFinset.mp hp))
  have hcard := Finset.card_le_card hsub
  rwa [Multiset.toFinset_card_of_nodup hnodup, Nat.card_Ico] at hcard

end Zeroxos
