import Zeroxos.Library.Block
import Mathlib.Data.Finset.SDiff

/-!
# The maximal blocks of a set of cells

For a finite set `F` of cells and a largest order `M`, the aligned blocks inside `F` that cannot be
doubled without leaving `F` partition it. A family is *coalesced* when it lists exactly those
blocks, each once. Coalescedness determines the family, which is what makes the state of a buddy
allocator a function of the pages that are free.

## The moves

Two lemmas carry everything. `Coalesced.erase` takes one listed block out of the set, and
`Coalesced.insert` puts a block in, provided it cannot be doubled in the enlarged set. A split is
one `erase` followed by an `insert` for each half put back, and a merge is an `erase` for each
buddy absorbed followed by one `insert`.
-/

namespace Zeroxos

namespace Block

/-- `b` is an aligned block inside `F`, of order at most `M`, whose parent is not inside `F`. -/
structure IsMaximal (M : ℕ) (F : Finset ℕ) (b : Block) : Prop where
  aligned : b.Aligned
  order_le : b.order ≤ M
  subset : b.cells ⊆ F
  parent_not_subset : b.order < M → ¬b.parent.cells ⊆ F

/-- The family lists exactly the maximal blocks of `F`, each once. -/
structure Coalesced (M : ℕ) (F : Finset ℕ) (B : Multiset Block) : Prop where
  nodup : B.Nodup
  mem_iff : ∀ b, b ∈ B ↔ IsMaximal M F b

variable {M : ℕ} {F : Finset ℕ} {B : Multiset Block} {a b : Block}

private theorem IsMaximal.order_le_of_mem (ha : IsMaximal M F a) (hb : b.Aligned)
    (hbM : b.order ≤ M) (hbF : b.cells ⊆ F) {p : ℕ} (hpa : p ∈ a.cells) (hpb : p ∈ b.cells) :
    b.order ≤ a.order := by
  by_contra hlt
  push Not at hlt
  exact ha.parent_not_subset (lt_of_lt_of_le hlt hbM)
    ((parent_subset_of_mem ha.aligned hb hlt hpa hpb).trans hbF)

theorem IsMaximal.eq_of_mem (ha : IsMaximal M F a) (hb : IsMaximal M F b) {p : ℕ}
    (hpa : p ∈ a.cells) (hpb : p ∈ b.cells) : a = b := by
  refine eq_of_mem_of_order_eq ha.aligned hb.aligned (le_antisymm ?_ ?_) hpa hpb
  · exact hb.order_le_of_mem ha.aligned ha.order_le ha.subset hpb hpa
  · exact ha.order_le_of_mem hb.aligned hb.order_le hb.subset hpa hpb

/-- Every aligned block inside `F` lies inside a maximal one. The induction climbs from the block
to its parents and stops at the first that leaves `F`, or at order `M`. -/
theorem exists_isMaximal_of_subset : ∀ (n : ℕ) (a : Block), M - a.order = n → a.Aligned →
    a.order ≤ M → a.cells ⊆ F → ∃ b, IsMaximal M F b ∧ a.order ≤ b.order ∧ a.cells ⊆ b.cells := by
  intro n
  induction n with
  | zero =>
    intro a hn ha hM hF
    exact ⟨a, ⟨ha, hM, hF, fun h ↦ absurd h (by omega)⟩, le_refl _, subset_rfl⟩
  | succ n ih =>
    intro a hn ha hM hF
    by_cases hp : a.parent.cells ⊆ F
    · obtain ⟨b, hb, hle, hsub⟩ := ih a.parent (by rw [parent_order]; omega) a.aligned_parent
        (by rw [parent_order]; omega) hp
      exact ⟨b, hb, le_trans (Nat.le_succ _) hle, (cells_subset_parent ha).trans hsub⟩
    · exact ⟨a, ⟨ha, hM, hF, fun _ ↦ hp⟩, le_refl _, subset_rfl⟩

/-! ## Taking a block out of the set -/

private theorem isMaximal_sdiff_iff (hb : IsMaximal M F b) :
    IsMaximal M (F \ b.cells) a ↔ a ≠ b ∧ IsMaximal M F a := by
  constructor
  · intro ha
    have hdisj : ∀ p ∈ a.cells, p ∉ b.cells := fun p hp ↦
      (Finset.mem_sdiff.mp (ha.subset hp)).2
    have hne : a ≠ b := by
      rintro rfl
      exact hdisj _ a.base_mem_cells a.base_mem_cells
    refine ⟨hne, ha.aligned, ha.order_le, ha.subset.trans Finset.sdiff_subset, ?_⟩
    intro hlt hparent
    -- The parent stays inside `F` but not inside `F \ b`, so it meets `b`.
    obtain ⟨p, hpa, hpF⟩ := Finset.not_subset.mp (ha.parent_not_subset hlt)
    have hpb : p ∈ b.cells := by
      by_contra hpb
      exact hpF (Finset.mem_sdiff.mpr ⟨hparent hpa, hpb⟩)
    rcases Nat.lt_or_ge a.order b.order with hab | hba
    · have hsub : a.parent.cells ⊆ b.cells :=
        cells_subset_of_mem a.aligned_parent hb.aligned hab hpa hpb
      exact hdisj _ a.base_mem_cells (hsub (cells_subset_parent ha.aligned a.base_mem_cells))
    · exact absurd (hb.order_le_of_mem a.aligned_parent hlt hparent hpb hpa)
        (by rw [parent_order]; omega)
  · rintro ⟨hne, ha⟩
    refine ⟨ha.aligned, ha.order_le, fun p hp ↦ ?_, fun hlt hparent ↦ ?_⟩
    · exact Finset.mem_sdiff.mpr ⟨ha.subset hp, fun hpb ↦ hne (ha.eq_of_mem hb hp hpb)⟩
    · exact ha.parent_not_subset hlt (hparent.trans Finset.sdiff_subset)

/-- **Removing a listed block.** -/
theorem Coalesced.erase (h : Coalesced M F B) (hb : b ∈ B) :
    Coalesced M (F \ b.cells) (B.erase b) where
  nodup := h.nodup.erase b
  mem_iff a := by
    rw [h.nodup.mem_erase_iff, h.mem_iff, isMaximal_sdiff_iff ((h.mem_iff b).mp hb)]

/-! ## Putting a block into the set -/

private theorem isMaximal_union_iff (hb : b.Aligned) (hM : b.order ≤ M)
    (hdisj : Disjoint b.cells F) (hparent : b.order < M → ¬b.parent.cells ⊆ F ∪ b.cells) :
    IsMaximal M (F ∪ b.cells) a ↔ a = b ∨ IsMaximal M F a := by
  have hbmax : IsMaximal M (F ∪ b.cells) b := ⟨hb, hM, Finset.subset_union_right, hparent⟩
  constructor
  · intro ha
    by_cases hmeet : ∃ p ∈ a.cells, p ∈ b.cells
    · obtain ⟨p, hpa, hpb⟩ := hmeet
      exact Or.inl (ha.eq_of_mem hbmax hpa hpb)
    · push Not at hmeet
      refine Or.inr ⟨ha.aligned, ha.order_le, fun p hp ↦ ?_, fun hlt h ↦ ?_⟩
      · exact (Finset.mem_union.mp (ha.subset hp)).resolve_right (hmeet p hp)
      · exact ha.parent_not_subset hlt (h.trans Finset.subset_union_left)
  · rintro (rfl | ha)
    · exact hbmax
    refine ⟨ha.aligned, ha.order_le, ha.subset.trans Finset.subset_union_left, ?_⟩
    intro hlt h
    -- The parent of `a` now lies inside, so it meets `b`; but `b` cannot be doubled either.
    obtain ⟨p, hpa, hpF⟩ := Finset.not_subset.mp (ha.parent_not_subset hlt)
    have hpb : p ∈ b.cells := (Finset.mem_union.mp (h hpa)).resolve_left hpF
    rcases Nat.lt_or_ge a.order b.order with hab | hba
    · have hsub : a.parent.cells ⊆ b.cells :=
        cells_subset_of_mem a.aligned_parent hb hab hpa hpb
      exact Finset.disjoint_left.mp hdisj
        (hsub (cells_subset_parent ha.aligned a.base_mem_cells)) (ha.subset a.base_mem_cells)
    · exact absurd (hbmax.order_le_of_mem a.aligned_parent hlt h hpb hpa)
        (by rw [parent_order]; omega)

/-- **Inserting a block that cannot be doubled.** -/
theorem Coalesced.insert (h : Coalesced M F B) (hb : b.Aligned) (hM : b.order ≤ M)
    (hdisj : Disjoint b.cells F) (hparent : b.order < M → ¬b.parent.cells ⊆ F ∪ b.cells) :
    Coalesced M (F ∪ b.cells) (b ::ₘ B) where
  nodup := by
    refine Multiset.nodup_cons.mpr ⟨fun hmem ↦ ?_, h.nodup⟩
    exact Finset.disjoint_left.mp hdisj b.base_mem_cells
      (((h.mem_iff b).mp hmem).subset b.base_mem_cells)
  mem_iff a := by
    rw [Multiset.mem_cons, h.mem_iff, isMaximal_union_iff hb hM hdisj hparent]

/-! ## Splitting and merging

The three moves of a buddy allocator, in terms of a block `d` that is inside `F` but currently
held out of the family. -/

/-- Hold only the lower half of what is held, and put the upper half back. The upper half cannot
be doubled because the lower half is held. -/
theorem Coalesced.halve {f o : ℕ} (h : Coalesced M (F \ (⟨f, o + 1⟩ : Block).cells) B)
    (hal : (⟨f, o + 1⟩ : Block).Aligned) (hM : o + 1 ≤ M)
    (hF : (⟨f, o + 1⟩ : Block).cells ⊆ F) :
    Coalesced M (F \ (⟨f, o⟩ : Block).cells) (⟨f + 2 ^ o, o⟩ ::ₘ B) := by
  have hpow : 2 ^ (o + 1) = 2 ^ o + 2 ^ o := by ring
  have hpos : 0 < 2 ^ o := Nat.two_pow_pos o
  have hdvd : 2 ^ o ∣ f := (Nat.pow_dvd_pow 2 (Nat.le_succ o)).trans hal
  have hupper : (⟨f + 2 ^ o, o⟩ : Block).Aligned := (Nat.dvd_add_right hdvd).mpr (dvd_refl _)
  have hset : F \ (⟨f, o + 1⟩ : Block).cells ∪ (⟨f + 2 ^ o, o⟩ : Block).cells
      = F \ (⟨f, o⟩ : Block).cells := by
    ext p
    have hp : p ∈ (⟨f, o + 1⟩ : Block).cells → p ∈ F := fun hp ↦ hF hp
    simp only [Finset.mem_union, Finset.mem_sdiff, mem_cells, hpow] at hp ⊢
    constructor
    · rintro (⟨hpF, hout⟩ | hin)
      · exact ⟨hpF, by omega⟩
      · exact ⟨hp (by omega), by omega⟩
    · rintro ⟨hpF, hout⟩
      by_cases hin : f + 2 ^ o ≤ p ∧ p < f + 2 ^ o + 2 ^ o
      · exact Or.inr hin
      · exact Or.inl ⟨hpF, by omega⟩
  have hparent : (⟨f + 2 ^ o, o⟩ : Block).parent = ⟨f, o + 1⟩ := by
    refine eq_of_mem_of_order_eq (aligned_parent _) hal rfl
      (cells_subset_parent hupper (base_mem_cells _)) (mem_cells.mpr ?_)
    dsimp only
    omega
  rw [← hset]
  refine h.insert hupper (Nat.le_of_succ_le hM) ?_ fun _ hsub ↦ ?_
  · rw [Finset.disjoint_left]
    intro p hp hout
    refine (Finset.mem_sdiff.mp hout).2 (mem_cells.mpr ?_)
    rw [mem_cells] at hp
    dsimp only at hp ⊢
    omega
  · rw [hset, hparent] at hsub
    have hbase := hsub (base_mem_cells _)
    exact (Finset.mem_sdiff.mp hbase).2 (base_mem_cells ⟨f, o⟩)

/-- Hold the parent of what is held, when the buddy is listed. -/
theorem Coalesced.absorb {d : Block} (h : Coalesced M (F \ d.cells) B) (hd : d.Aligned)
    (hF : d.cells ⊆ F) (hbuddy : d.buddy ∈ B) :
    d.parent.cells ⊆ F ∧ Coalesced M (F \ d.parent.cells) (B.erase d.buddy) := by
  have hsub : d.buddy.cells ⊆ F := ((h.mem_iff _).mp hbuddy).subset.trans Finset.sdiff_subset
  have hunion := cells_union_buddy hd
  refine ⟨hunion ▸ Finset.union_subset hF hsub, ?_⟩
  have herase := h.erase hbuddy
  rwa [sdiff_sdiff, Finset.sup_eq_union, hunion] at herase

/-- Put back what is held, when the buddy is not listed. Were the parent entirely inside, the
buddy would be maximal once the block is held out, hence listed. -/
theorem Coalesced.putBack {d : Block} (h : Coalesced M (F \ d.cells) B) (hd : d.Aligned)
    (hM : d.order ≤ M) (hF : d.cells ⊆ F) (hbuddy : d.order < M → d.buddy ∉ B) :
    Coalesced M F (d ::ₘ B) := by
  have hset : F \ d.cells ∪ d.cells = F := Finset.sdiff_union_of_subset hF
  rw [← hset]
  refine h.insert hd hM Finset.disjoint_sdiff fun hlt hparent ↦ ?_
  rw [hset, ← cells_union_buddy hd] at hparent
  refine hbuddy hlt ((h.mem_iff _).mpr ⟨aligned_buddy hd, hM, fun p hp ↦ ?_, fun _ hsub ↦ ?_⟩)
  · exact Finset.mem_sdiff.mpr ⟨hparent (Finset.mem_union_right _ hp),
      fun hpd ↦ Finset.disjoint_left.mp (disjoint_cells_buddy hd) hpd hp⟩
  · rw [parent_buddy hd] at hsub
    exact (Finset.mem_sdiff.mp (hsub (cells_subset_parent hd (base_mem_cells d)))).2
      (base_mem_cells d)

/-! ## What coalescedness determines -/

theorem coalesced_empty : Coalesced M ∅ 0 where
  nodup := Multiset.nodup_zero
  mem_iff b := by
    refine iff_of_false (Multiset.notMem_zero b) fun h ↦ ?_
    exact absurd (h.subset b.base_mem_cells) (Finset.notMem_empty _)

/-- **The set of cells determines the family.** -/
theorem Coalesced.unique {B' : Multiset Block} (h : Coalesced M F B) (h' : Coalesced M F B') :
    B = B' :=
  (Multiset.Nodup.ext h.nodup h'.nodup).mpr fun b ↦ (h.mem_iff b).trans (h'.mem_iff b).symm

/-- **Completeness.** Any aligned block inside the set lies inside a listed block. -/
theorem Coalesced.exists_mem_of_subset (h : Coalesced M F B) (ha : a.Aligned) (hM : a.order ≤ M)
    (hF : a.cells ⊆ F) : ∃ b ∈ B, a.order ≤ b.order ∧ a.cells ⊆ b.cells := by
  obtain ⟨b, hb, hle, hsub⟩ := exists_isMaximal_of_subset _ a rfl ha hM hF
  exact ⟨b, (h.mem_iff b).mpr hb, hle, hsub⟩

end Block

end Zeroxos
