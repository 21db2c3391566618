import Zeroxos.Kernel.BuddyPartition
import Zeroxos.Library.Coalesced
import Mathlib.Algebra.Order.BigOperators.Group.Finset

/-!
# The buddy allocator is always fully coalesced

When no two registered regions touch, the free lists hold exactly the maximal aligned blocks of the
free pages. The free pages are those registered and not outstanding, a set the lists have no say
in, so the state of the allocator is a function of what its clients did and not of the order they
did it in.

## The moves

`alloc` and `free` are moves of `Library.Coalesced`. `alloc` takes a maximal block out and halves
what it holds; `free` holds the block it was given, absorbs buddies, and puts the result back.

## The greedy choice

`add_region` inserts its blocks one by one, and each of them has to be maximal among the pages free
when all of the region is. `Cut` says that no aligned block that starts inside the part already
placed and reaches past it fits in the region, so a block the loop places is never the upper half
of a larger one.

## What follows

Completeness and independence of history are read off the family (`buddy_coalesced`): an order is
refused only when no aligned run of that many pages is free, and freeing everything, in any order,
leaves the lists of a fresh allocator with the same regions.
-/

namespace Zeroxos

open Block BuddyAllocator

/-! ## `add_region` -/

/-- No aligned block starts in `[start, pfn)`, reaches past `pfn`, and ends by `stop`. -/
private def Cut (start stop pfn : ℕ) : Prop :=
  ∀ c : Block, c.Aligned → c.order ≤ maxOrder → start ≤ c.base → c.base < pfn →
    pfn < c.base + 2 ^ c.order → stop < c.base + 2 ^ c.order

/-- The greedy choice keeps the cut clean: an aligned block that starts inside the block placed
lies inside it, and one that starts with it and is larger would have been chosen. -/
private theorem cut_step {start stop pfn rem : ℕ} (hstop : pfn + rem = stop)
    (hcut : Cut start stop pfn) :
    Cut start stop (pfn + 2 ^ fitOrder rem pfn maxOrder) := by
  intro c hal hM hstart hbase hreach
  by_contra hfit
  push Not at hfit
  set o := fitOrder rem pfn maxOrder with ho
  have hpos : 0 < 2 ^ o := Nat.two_pow_pos _
  rcases lt_trichotomy c.base pfn with hlt | heq | hgt
  · exact absurd (hcut c hal hM hstart hlt (by omega)) (not_lt.mpr hfit)
  · -- The loop would have chosen an order at least as large.
    have hsize : 2 ^ c.order ≤ rem := by omega
    have hle : c.order ≤ o := le_fitOrder hsize (heq ▸ hal) hM
    have := Nat.pow_le_pow_right (n := 2) (by norm_num) hle
    omega
  · have hplaced : (⟨pfn, o⟩ : Block).Aligned := two_pow_fitOrder_dvd rem pfn maxOrder
    have hin : c.base ∈ (⟨pfn, o⟩ : Block).cells := mem_cells.mpr ⟨le_of_lt hgt, hbase⟩
    rcases Nat.le_total c.order o with hle | hle
    · have hsub := cells_subset_of_mem hal hplaced hle c.base_mem_cells hin
      have hend : pfn + 2 ^ o ∈ (⟨pfn, o⟩ : Block).cells :=
        hsub (mem_cells.mpr ⟨le_of_lt hbase, hreach⟩)
      have := (mem_cells.mp hend).2
      dsimp only at this
      omega
    · have hsub := cells_subset_of_mem hplaced hal hle hin c.base_mem_cells
      have := (mem_cells.mp (hsub (base_mem_cells ⟨pfn, o⟩))).1
      dsimp only at this
      omega

/-- A block the loop places cannot be doubled: its parent either reaches past the region, or begins
before it, or was already excluded by the cut. The page before the region and the page after it are
not free, which is where regions that touch would break the argument. -/
private theorem parent_not_subset {F : Finset ℕ} {start stop pfn rem : ℕ} (hstart : start ≤ pfn)
    (hstop : pfn + rem = stop) (hrem : 0 < rem) (hdisj : Disjoint F (Finset.Ico start stop))
    (hafter : stop ∉ F) (hbefore : ∀ p ∈ F, p + 1 ≠ start) (hcut : Cut start stop pfn)
    (hlt : fitOrder rem pfn maxOrder < maxOrder) :
    ¬(⟨pfn, fitOrder rem pfn maxOrder⟩ : Block).parent.cells
      ⊆ F ∪ Finset.Ico start pfn ∪ (⟨pfn, fitOrder rem pfn maxOrder⟩ : Block).cells := by
  intro hsub
  have hfit := two_pow_fitOrder_le hrem pfn maxOrder
  have hplaced : (⟨pfn, fitOrder rem pfn maxOrder⟩ : Block).Aligned :=
    two_pow_fitOrder_dvd rem pfn maxOrder
  set o := fitOrder rem pfn maxOrder
  have hpos : 0 < 2 ^ o := Nat.two_pow_pos _
  have hpow : 2 ^ (o + 1) = 2 ^ o + 2 ^ o := by ring
  have hnotF : ∀ p ∈ F, ¬(start ≤ p ∧ p ≤ stop) := by
    rintro p hp ⟨h1, h2⟩
    rcases Nat.lt_or_eq_of_le h2 with h2 | rfl
    · exact Finset.disjoint_left.mp hdisj hp (Finset.mem_Ico.mpr ⟨h1, h2⟩)
    · exact hafter hp
  rcases buddy_cases hplaced with ⟨hparent, -⟩ | ⟨hparent, hbase⟩
  · -- the lower half: the page after the block would have to be free
    have hmem : pfn + 2 ^ o ∈ (⟨pfn, o⟩ : Block).parent.cells := by
      rw [mem_cells, hparent, parent_order, hpow]
      dsimp only
      omega
    have hin := hsub hmem
    rw [Finset.mem_union, Finset.mem_union, Finset.mem_Ico, mem_cells] at hin
    rcases hin with (hin | hin) | hin
    · exact hnotF _ hin ⟨by omega, by omega⟩
    · omega
    · dsimp only at hin
      omega
  · rw [← hparent] at hbase
    dsimp only at hbase
    rcases Nat.lt_or_ge (⟨pfn, o⟩ : Block).parent.base start with hout | hinside
    · -- the upper half of a block that begins before the region
      have hmem : start - 1 ∈ (⟨pfn, o⟩ : Block).parent.cells := by
        rw [mem_cells, parent_order, hpow]
        omega
      have hin := hsub hmem
      rw [Finset.mem_union, Finset.mem_union, Finset.mem_Ico, mem_cells] at hin
      rcases hin with (hin | hin) | hin
      · exact hbefore _ hin (by omega)
      · omega
      · dsimp only at hin
        omega
    · -- the upper half of a block in the region, which the cut excludes
      have := hcut _ (aligned_parent _) (by rw [parent_order]; exact hlt) hinside (by omega)
        (by rw [parent_order, hpow]; omega)
      rw [parent_order, hpow] at this
      omega

/-- **`add_region`** extends the coalesced family of a set by the region, when the set keeps clear
of the region and of the pages on either side. -/
theorem addRegion_coalesced {b : BuddyAllocator} {F : Finset ℕ}
    (h : Coalesced maxOrder F b.freeBlocks) {start pageCount : ℕ}
    (hword : start + pageCount < wordSize)
    (hdisj : Disjoint F (Finset.Ico start (start + pageCount)))
    (hafter : 0 < pageCount → start + pageCount ∉ F)
    (hbefore : 0 < pageCount → ∀ p ∈ F, p + 1 ≠ start) :
    ∃ b', addRegion start pageCount b = .ok b' ∧
      Coalesced maxOrder (F ∪ Finset.Ico start (start + pageCount)) b'.freeBlocks := by
  obtain ⟨b', hloop, ⟨hcoal, -⟩, -⟩ := addRegionLoop_rule
    (P := fun B pfn rem ↦ Coalesced maxOrder (F ∪ Finset.Ico start pfn) B ∧ start ≤ pfn ∧
      pfn + rem = start + pageCount ∧ Cut start (start + pageCount) pfn)
    (fun B pfn rem hrem hP ↦ by
      obtain ⟨hcoal, hstart, hstop, hcut⟩ := hP
      have hfit := two_pow_fitOrder_le hrem pfn maxOrder
      have hpos : 0 < 2 ^ fitOrder rem pfn maxOrder := Nat.two_pow_pos _
      have hinterval : Finset.Ico start pfn ∪ (⟨pfn, fitOrder rem pfn maxOrder⟩ : Block).cells
          = Finset.Ico start (pfn + 2 ^ fitOrder rem pfn maxOrder) :=
        Finset.Ico_union_Ico_eq_Ico hstart (Nat.le_add_right _ _)
      refine ⟨?_, by omega, by omega, cut_step hstop hcut⟩
      rw [← hinterval, ← Finset.union_assoc]
      refine hcoal.insert (two_pow_fitOrder_dvd rem pfn maxOrder)
        (fitOrder_le rem pfn maxOrder) ?_ fun hlt ↦ ?_
      · rw [Finset.disjoint_left]
        intro p hp hout
        rw [mem_cells] at hp
        dsimp only at hp
        rcases Finset.mem_union.mp hout with hF | hF
        · exact Finset.disjoint_left.mp hdisj hF (Finset.mem_Ico.mpr ⟨by omega, by omega⟩)
        · rw [Finset.mem_Ico] at hF
          omega
      · exact parent_not_subset hstart hstop hrem hdisj (hafter (by omega)) (hbefore (by omega))
          hcut hlt)
    { b with
      totalPages := wadd b.totalPages pageCount
      freePages := wadd b.freePages pageCount } start pageCount hword
    ⟨by rw [Finset.Ico_self, Finset.union_empty]; exact h, le_refl _, rfl,
      fun c _ _ hstart hlt ↦ absurd hlt (not_lt.mpr hstart)⟩
  exact ⟨b', hloop, hcoal⟩

/-! ## `alloc` and `free` -/

/-- **`alloc`** leaves the coalesced family of what is still free. -/
theorem alloc_coalesced {b : BuddyAllocator} {F : Finset ℕ} {k : ℕ}
    (h : Coalesced maxOrder F b.freeBlocks)
    (hword : ∀ c ∈ b.freeBlocks, c.base + 2 ^ c.order ≤ wordSize)
    (hex : ∃ c ∈ b.freeBlocks, k ≤ c.order) (st : Statics) :
    ∃ f b' st', alloc k b st = .ok (some f, b', st') ∧
      Coalesced maxOrder (F \ (⟨f, k⟩ : Block).cells) b'.freeBlocks := by
  obtain ⟨c, _, _, b', halloc, ⟨-, hcoal⟩, -⟩ := alloc_rule
    (P := fun c B o ↦ ((⟨c.base, o⟩ : Block).Aligned ∧ o ≤ maxOrder ∧
      (⟨c.base, o⟩ : Block).cells ⊆ F) ∧ Coalesced maxOrder (F \ (⟨c.base, o⟩ : Block).cells) B)
    hword hex
    (fun c hc _ ↦ by
      have hmax := (h.mem_iff c).mp hc
      exact ⟨⟨hmax.aligned, hmax.order_le, hmax.subset⟩, h.erase hc⟩)
    (fun c B o _ hP ↦ by
      obtain ⟨⟨hal, hM, hF⟩, hcoal⟩ := hP
      refine ⟨⟨(Nat.pow_dvd_pow 2 (Nat.le_succ o)).trans hal, Nat.le_of_succ_le hM, ?_⟩,
        hcoal.halve hal hM hF⟩
      refine fun p hp ↦ hF (mem_cells.mpr ?_)
      have hpow : 2 ^ (o + 1) = 2 ^ o + 2 ^ o := by ring
      rw [mem_cells] at hp
      dsimp only at hp ⊢
      omega) st
  exact ⟨c.base, b', _, halloc, hcoal⟩

/-- **`free`** leaves the coalesced family of what is free now. -/
theorem free_coalesced {b : BuddyAllocator} {F : Finset ℕ} {c : Block}
    (h : Coalesced maxOrder F b.freeBlocks) (hal : c.Aligned) (hM : c.order ≤ maxOrder)
    (hdisj : Disjoint c.cells F) (st : Statics) :
    ∃ b' st', free c.base c.order b st = .ok (b', st') ∧
      Coalesced maxOrder (F ∪ c.cells) b'.freeBlocks := by
  obtain ⟨b', B, d, hfree, hdal, hdM, ⟨hdF, hcoal⟩, hbuddy, hblocks, -⟩ := free_rule
    (P := fun B d ↦ d.cells ⊆ F ∪ c.cells ∧ Coalesced maxOrder ((F ∪ c.cells) \ d.cells) B)
    hal hM
    ⟨Finset.subset_union_right, by
      rwa [Finset.union_sdiff_cancel_right hdisj.symm]⟩
    (fun B d hd _ hmem hP ↦ hP.2.absorb hd hP.1 hmem) st
  refine ⟨b', _, hfree, ?_⟩
  rw [hblocks]
  exact hcoal.putBack hdal hdM hdF hbuddy

/-! ## Every run -/

namespace BuddySys

variable {s s' : BuddySys}

/-- The free pages: registered, and in no outstanding block. -/
def freeCells (s : BuddySys) : Finset ℕ :=
  s.registeredCells.toFinset \ (cover cells s.outstanding).toFinset

theorem mem_freeCells {p : ℕ} :
    p ∈ s.freeCells ↔ (∃ r ∈ s.registered, p ∈ r.cells) ∧ ∀ b ∈ s.outstanding, p ∉ b.cells := by
  rw [freeCells, Finset.mem_sdiff, Multiset.mem_toFinset, Multiset.mem_toFinset,
    mem_registeredCells, mem_cover]
  push Not
  rfl

theorem Inv.mem_freeCells_iff (h : s.Inv) {p : ℕ} :
    p ∈ s.freeCells ↔ p ∈ cover cells s.buddy.freeBlocks := by
  have hnodup := h.nodup
  rw [← h.cover_eq, Multiset.nodup_add] at hnodup
  rw [freeCells, Finset.mem_sdiff, Multiset.mem_toFinset, Multiset.mem_toFinset, ← h.cover_eq,
    Multiset.mem_add]
  constructor
  · rintro ⟨hp | hp, hout⟩
    · exact hp
    · exact absurd hp hout
  · exact fun hp ↦ ⟨Or.inl hp, Multiset.disjoint_left.mp hnodup.2.2 hp⟩

theorem Inv.freeCells_eq (h : s.Inv) :
    s.freeCells = (cover cells s.buddy.freeBlocks).toFinset := by
  ext p
  rw [h.mem_freeCells_iff, Multiset.mem_toFinset]

theorem Legal.zero {call : BuddyCall} (h : s.Legal 1 call) : s.Legal 0 call := by
  cases call with
  | addRegion start pageCount =>
    refine ⟨h.1, fun r hr ↦ ?_⟩
    have := h.2 r hr
    unfold Span.Apart at this ⊢
    omega
  | alloc order => trivial
  | free frame order => exact h

theorem reachable_zero (h : (buddySystem 1).Reachable s) : (buddySystem 0).Reachable s :=
  h.mono (fun _ hs ↦ hs) fun _ _ _ hstep ↦ ⟨hstep.1.zero, hstep.2⟩

/-- The invariant of the runs whose regions keep a page apart. -/
structure CoalescedInv (s : BuddySys) : Prop extends s.Inv where
  coalesced : Coalesced maxOrder s.freeCells s.buddy.freeBlocks
  /-- The regions could be registered again, oldest first. -/
  apart : s.registered.Pairwise (Span.Apart 1)
  bounded : ∀ r ∈ s.registered, r.base + r.len < wordSize

theorem coalescedInv_new : new.CoalescedInv where
  toInv := inv_new
  coalesced := by
    rw [inv_new.freeCells_eq, new, freeBlocks_new]
    exact coalesced_empty
  apart := List.Pairwise.nil
  bounded r hr := absurd hr List.not_mem_nil

private theorem not_mem_of_apart {start pageCount : ℕ}
    (h : ∀ r ∈ s.registered, Span.Apart 1 ⟨start, pageCount⟩ r) (hpos : 0 < pageCount) {p : ℕ}
    (hp : p ∈ s.freeCells) : ¬(start ≤ p + 1 ∧ p ≤ start + pageCount) := by
  obtain ⟨⟨r, hr, hpr⟩, -⟩ := mem_freeCells.mp hp
  have hapart := h r hr
  rw [Span.mem_cells] at hpr
  unfold Span.Apart at hapart
  dsimp only at hapart
  omega

private theorem coalesced_addRegion (h : s.CoalescedInv) {start pageCount : ℕ}
    (hlegal : s.Legal 1 (.addRegion start pageCount)) {r : Option PageFrame}
    (hstep : s.step (.addRegion start pageCount) = .ok (r, s')) (hinv : s'.Inv) :
    s'.CoalescedInv := by
  obtain ⟨hword, hapart⟩ := hlegal
  obtain ⟨b', hadd, hcoal⟩ := addRegion_coalesced h.coalesced hword
    (by
      rw [Finset.disjoint_left]
      intro p hp hin
      rw [Finset.mem_Ico] at hin
      exact not_mem_of_apart hapart (by omega) hp ⟨by omega, by omega⟩)
    (fun hpos hp ↦ not_mem_of_apart hapart hpos hp ⟨by omega, by omega⟩)
    (fun hpos p hp heq ↦ not_mem_of_apart hapart hpos hp ⟨by omega, by omega⟩)
  rw [step, hadd] at hstep
  cases hstep
  refine ⟨hinv, ?_, List.pairwise_cons.mpr ⟨hapart, h.apart⟩, fun r hr ↦ ?_⟩
  · convert hcoal using 1
    obtain ⟨b'', hadd', -, hcover, -⟩ := addRegion_spec h.aligned hword
    rw [hadd] at hadd'
    cases hadd'
    rw [hinv.freeCells_eq, hcover, Multiset.toFinset_add, h.freeCells_eq]
    congr 1
    exact Finset.val_toFinset _
  · rcases List.mem_cons.mp hr with rfl | hr
    · exact hword
    · exact h.bounded r hr

private theorem coalesced_alloc (h : s.CoalescedInv) {k : ℕ} {r : Option PageFrame}
    (hstep : s.step (.alloc k) = .ok (r, s')) (hinv : s'.Inv) : s'.CoalescedInv := by
  by_cases hex : ∃ c ∈ s.buddy.freeBlocks, k ≤ c.order
  · obtain ⟨f, b', st', halloc, hcoal⟩ :=
      alloc_coalesced h.coalesced (fun c hc ↦ h.toInv.tally.block_lt hc) hex s.statics
    rw [step, halloc] at hstep
    cases hstep
    refine ⟨hinv, ?_, h.apart, h.bounded⟩
    convert hcoal using 1
    show s.registeredCells.toFinset \ (cover cells (⟨f, k⟩ ::ₘ s.outstanding)).toFinset = _
    rw [cover_cons, Multiset.toFinset_add, Finset.val_toFinset, Finset.union_comm,
      ← Finset.sup_eq_union, ← sdiff_sdiff]
    rfl
  · push Not at hex
    rw [step, alloc_eq_none hex] at hstep
    cases hstep
    exact h

private theorem coalesced_free (h : s.CoalescedInv) {frame order : ℕ}
    (hlegal : s.Legal 1 (.free frame order)) {r : Option PageFrame}
    (hstep : s.step (.free frame order) = .ok (r, s')) (hinv : s'.Inv) : s'.CoalescedInv := by
  obtain ⟨hal, hM⟩ := h.aligned_outstanding _ hlegal
  have hdisj : Disjoint (⟨frame, order⟩ : Block).cells s.freeCells := by
    rw [Finset.disjoint_left]
    exact fun p hp hfree ↦ (mem_freeCells.mp hfree).2 _ hlegal hp
  obtain ⟨b', st', hfree, hcoal⟩ := free_coalesced h.coalesced hal hM hdisj s.statics
  rw [step, hfree] at hstep
  cases hstep
  refine ⟨hinv, ?_, h.apart, h.bounded⟩
  convert hcoal using 1
  obtain ⟨b'', hfree', -, hcover, -⟩ := free_spec h.toInv.tally hlegal
  rw [hfree] at hfree'
  cases hfree'
  rw [hinv.freeCells_eq, hcover, Multiset.toFinset_add, h.freeCells_eq, Finset.val_toFinset]

theorem coalescedInv_of_reachable (h : (buddySystem 1).Reachable s) : s.CoalescedInv := by
  refine h.invariant (P := CoalescedInv) (fun s hs ↦ ?_) (fun s call s' hr hinv hstep ↦ ?_)
  · rw [hs]
    exact coalescedInv_new
  · obtain ⟨hlegal, hnext⟩ := hstep
    have hinv' : s'.Inv := inv_of_reachable
      (.step (reachable_zero hr) ⟨Legal.zero hlegal, hnext⟩)
    obtain ⟨r, hstep⟩ := step_of_next hnext
    cases call with
    | addRegion start pageCount => exact coalesced_addRegion hinv hlegal hstep hinv'
    | alloc order => exact coalesced_alloc hinv hstep hinv'
    | free frame order => exact coalesced_free hinv hlegal hstep hinv'

/-! ## The state is a function of the free pages -/

/-- A page that is registered and not outstanding. -/
def IsFree (s : BuddySys) (p : ℕ) : Prop :=
  (∃ r ∈ s.registered, p ∈ r.cells) ∧ ∀ b ∈ s.outstanding, p ∉ b.cells

/-- The `2 ^ o` pages from `f` on are free. -/
def RunFree (s : BuddySys) (f o : ℕ) : Prop := ∀ p, f ≤ p → p < f + 2 ^ o → s.IsFree p

/-- Each list holds, once each, the maximal aligned runs of free pages of its order. -/
structure Canonical (s : BuddySys) : Prop where
  nodup : ∀ i, (s.buddy.freeLists i).Nodup
  mem_iff : ∀ (i : Fin (maxOrder + 1)) f, f ∈ s.buddy.freeLists i ↔
    2 ^ (i : ℕ) ∣ f ∧ s.RunFree f i ∧
      ((i : ℕ) < maxOrder → ¬s.RunFree (f / 2 ^ ((i : ℕ) + 1) * 2 ^ ((i : ℕ) + 1)) (i + 1))

theorem runFree_iff {f o : ℕ} : s.RunFree f o ↔ (⟨f, o⟩ : Block).cells ⊆ s.freeCells := by
  refine ⟨fun h p hp ↦ ?_, fun h p hp hlt ↦ mem_freeCells.mp (h (mem_cells.mpr ⟨hp, hlt⟩))⟩
  exact mem_freeCells.mpr (h p (mem_cells.mp hp).1 (mem_cells.mp hp).2)

end BuddySys

theorem BuddyAllocator.nodup_freeLists {b : BuddyAllocator} (h : b.freeBlocks.Nodup)
    (i : Fin (maxOrder + 1)) : (b.freeLists i).Nodup := by
  have hle : listBlocks i (b.freeLists i) ≤ b.freeBlocks :=
    Finset.single_le_sum (f := fun j ↦ listBlocks j (b.freeLists j))
      (fun _ _ ↦ Multiset.zero_le _) (Finset.mem_univ i)
  exact List.Nodup.of_map _ (Multiset.coe_nodup.mp (Multiset.nodup_of_le hle h))

/-- Equal families come from lists that are permutations of each other. -/
theorem BuddyAllocator.freeLists_perm {b b' : BuddyAllocator} (h : b.freeBlocks.Nodup)
    (heq : b.freeBlocks = b'.freeBlocks) (i : Fin (maxOrder + 1)) :
    (b.freeLists i).Perm (b'.freeLists i) := by
  refine (List.perm_ext_iff_of_nodup (nodup_freeLists h i)
    (nodup_freeLists (heq ▸ h) i)).mpr fun f ↦ ?_
  have hb := mem_freeBlocks (b := b) (c := ⟨f, i⟩)
  have hb' := mem_freeBlocks (b := b') (c := ⟨f, i⟩)
  rw [heq] at hb
  have hiff := hb.symm.trans hb'
  exact ⟨fun hf ↦ (hiff.mp ⟨i.isLt, hf⟩).2, fun hf ↦ (hiff.mpr ⟨i.isLt, hf⟩).2⟩

namespace BuddySys

variable {s s' : BuddySys}

theorem CoalescedInv.canonical (h : s.CoalescedInv) : s.Canonical where
  nodup := nodup_freeLists h.coalesced.nodup
  mem_iff i f := by
    have hmem : f ∈ s.buddy.freeLists i ↔ (⟨f, i⟩ : Block) ∈ s.buddy.freeBlocks :=
      ⟨fun hf ↦ mem_freeBlocks.mpr ⟨i.isLt, hf⟩, fun hf ↦ (mem_freeBlocks.mp hf).2⟩
    rw [hmem, h.coalesced.mem_iff, runFree_iff, runFree_iff]
    constructor
    · exact fun hmax ↦ ⟨hmax.aligned, hmax.subset, hmax.parent_not_subset⟩
    · exact fun ⟨hal, hsub, hparent⟩ ↦ ⟨hal, Nat.lt_succ_iff.mp i.isLt, hsub, hparent⟩

/-- **History does not matter.** Two runs that end with the same free pages end with the same free
lists, up to order. -/
theorem CoalescedInv.freeLists_perm (h : s.CoalescedInv) (h' : s'.CoalescedInv)
    (hfree : ∀ p, s.IsFree p ↔ s'.IsFree p) (i : Fin (maxOrder + 1)) :
    (s.buddy.freeLists i).Perm (s'.buddy.freeLists i) := by
  have hcells : s.freeCells = s'.freeCells := by
    ext p
    exact mem_freeCells.trans ((hfree p).trans mem_freeCells.symm)
  refine BuddyAllocator.freeLists_perm h.coalesced.nodup (h.coalesced.unique ?_) i
  rw [hcells]
  exact h'.coalesced

/-- **`alloc` is complete.** It refuses an order only when no aligned run of that many free pages
exists. -/
theorem CoalescedInv.not_runFree_of_alloc_none (h : s.CoalescedInv) {k : ℕ} (hk : k ≤ maxOrder)
    (hnone : s.step (.alloc k) = .ok (none, s')) {f : ℕ} (hf : 2 ^ k ∣ f) : ¬s.RunFree f k := by
  intro hrun
  obtain ⟨r, s'', hstep, -, hreturns⟩ := step_alloc h.toInv k
  rw [hnone] at hstep
  cases hstep
  obtain ⟨c, hc, hle, -⟩ := h.coalesced.exists_mem_of_subset (a := ⟨f, k⟩) hf hk
    (runFree_iff.mp hrun)
  rcases hreturns.1 with hlt | hlt
  · exact absurd hk (not_le.mpr hlt)
  · exact absurd hle (not_le.mpr (hlt c hc))

theorem run_free_outstanding : ∀ {l : List Block} {s : BuddySys}, (buddySystem 1).Reachable s →
    (l : Multiset Block) = s.outstanding →
    ∃ s', run 1 (l.map fun b ↦ .free b.base b.order) s = some s' ∧ (buddySystem 1).Reachable s' ∧
      s'.outstanding = 0 ∧ s'.registered = s.registered := by
  intro l
  induction l with
  | nil => exact fun {s} hs hout ↦ ⟨s, rfl, hs, hout.symm, rfl⟩
  | cons b l ih =>
    intro s hs hout
    have hlegal : s.Legal 1 (.free b.base b.order) := by
      show b ∈ s.outstanding
      rw [← hout]
      exact List.mem_cons_self
    obtain ⟨b', hfree, -⟩ := free_spec (coalescedInv_of_reachable hs).toInv.tally hlegal
    obtain ⟨s₁, hstep, hout₁, hreg₁⟩ : ∃ s₁, s.step (.free b.base b.order) = .ok (none, s₁) ∧
        s₁.outstanding = s.outstanding.erase b ∧ s₁.registered = s.registered := by
      rw [step, hfree]
      exact ⟨_, rfl, rfl, rfl⟩
    obtain ⟨s', hrun, hs', hout', hreg⟩ := ih (reachable_step hs hlegal hstep) (by
      rw [hout₁, ← hout, ← Multiset.cons_coe, Multiset.erase_cons_head])
    refine ⟨s', ?_, hs', hout', hreg.trans hreg₁⟩
    rw [List.map_cons, run_cons hlegal hstep]
    exact hrun

/-- Registering regions that keep a page apart, the last first, succeeds. -/
theorem run_addRegion : ∀ {l : List Span}, l.Pairwise (Span.Apart 1) →
    (∀ r ∈ l, r.base + r.len < wordSize) →
    ∃ s', run 1 (l.reverse.map fun r ↦ .addRegion r.base r.len) new = some s' ∧
      (buddySystem 1).Reachable s' ∧ s'.outstanding = 0 ∧ s'.registered = l := by
  intro l
  induction l with
  | nil => exact fun _ _ ↦ ⟨new, rfl, .init rfl, rfl, rfl⟩
  | cons r l ih =>
    intro hapart hword
    obtain ⟨hr, hl⟩ := List.pairwise_cons.mp hapart
    obtain ⟨s, hrun, hs, hout, hreg⟩ := ih hl fun q hq ↦ hword q (List.mem_cons_of_mem r hq)
    have hlegal : s.Legal 1 (.addRegion r.base r.len) :=
      ⟨hword r List.mem_cons_self, hreg ▸ hr⟩
    obtain ⟨b', hadd, -⟩ :=
      addRegion_spec (coalescedInv_of_reachable hs).aligned hlegal.1
    have hstep : s.step (.addRegion r.base r.len)
        = .ok (none, { s with buddy := b', registered := r :: s.registered }) := by
      rw [step, hadd]
      rfl
    refine ⟨{ s with buddy := b', registered := r :: s.registered }, ?_,
      reachable_step hs hlegal hstep, hout, by rw [← hreg]⟩
    rw [List.reverse_cons, List.map_append, run, Machine.run_append _ hrun, List.map_singleton]
    exact run_cons hlegal hstep []

end BuddySys

/-- **The buddy allocator is always fully coalesced and its state is canonical**, in the runs whose
regions keep at least one page apart. -/
theorem buddy_coalesced {s : BuddySys} (hs : (buddySystem 1).Reachable s) :
    s.Canonical ∧
    (∀ s', (buddySystem 1).Reachable s' → (∀ p, s.IsFree p ↔ s'.IsFree p) →
      ∀ i, (s.buddy.freeLists i).Perm (s'.buddy.freeLists i)) ∧
    (∀ k s', k ≤ maxOrder → s.step (.alloc k) = .ok (none, s') →
      ¬∃ f, 2 ^ k ∣ f ∧ s.RunFree f k) ∧
    ∀ l : List Block, (l : Multiset Block) = s.outstanding →
      ∃ s' s₀, BuddySys.run 1 (l.map fun b ↦ .free b.base b.order) s = some s' ∧
        BuddySys.run 1 (s.registered.reverse.map fun r ↦ .addRegion r.base r.len) BuddySys.new
          = some s₀ ∧
        ∀ i, (s'.buddy.freeLists i).Perm (s₀.buddy.freeLists i) := by
  have hinv := BuddySys.coalescedInv_of_reachable hs
  refine ⟨hinv.canonical, fun s' hs' ↦ ?_, fun k s' hk hnone ⟨f, hf, hrun⟩ ↦ ?_, fun l hl ↦ ?_⟩
  · exact hinv.freeLists_perm (BuddySys.coalescedInv_of_reachable hs')
  · exact hinv.not_runFree_of_alloc_none hk hnone hf hrun
  · obtain ⟨s', hrun, hs', hout, hreg⟩ := BuddySys.run_free_outstanding hs hl
    obtain ⟨s₀, hrun₀, hs₀, hout₀, hreg₀⟩ := BuddySys.run_addRegion hinv.apart hinv.bounded
    refine ⟨s', s₀, hrun, hrun₀, ?_⟩
    refine (BuddySys.coalescedInv_of_reachable hs').freeLists_perm
      (BuddySys.coalescedInv_of_reachable hs₀) fun p ↦ ?_
    rw [BuddySys.IsFree, BuddySys.IsFree, hout, hout₀, hreg, hreg₀]

/-- Pages 1 to 6 registered, one page allocated and freed. -/
theorem buddy_coalesced_of_free :
    BuddySys.Canonical ((BuddySys.run 1 [.addRegion 1 6, .alloc 0, .free 6 0] BuddySys.new).get
      (by decide +kernel)) :=
  (buddy_coalesced (Machine.reachable_run (.init rfl) (Option.some_get _).symm)).1

end Zeroxos
