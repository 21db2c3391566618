import Zeroxos.Kernel.HeapFragmentation

/-!
# Blocks that are given back in stack order

The free list is a stack: `add_free_region` puts a block in front. A client that gives back the
blocks of its last requests, the last one first, therefore finds them in front of the list in the
order it asked for them, and each is of the size and the alignment of its request. The same requests
made again take them one by one, whole, and leave the list as it was.
-/

namespace Zeroxos

open HeapMem

namespace HeapSys

/-- Requests for the blocks were made one after another and satisfied with these pointers, and none
of them wrapped. -/
inductive Served : HeapSys → List LiveBlock → HeapSys → Prop
  | nil {s : HeapSys} : Served s [] s
  | cons {s s' t : HeapSys} {b : LiveBlock} {blocks : List LiveBlock} :
      s.NoWrap b.layout → b.ptr ≠ 0 → s.step (.alloc b.layout) = some (b.ptr, s') →
        Served s' blocks t → Served s (b :: blocks) t

/-- The state after a block was freed. -/
def freeBlock (s : HeapSys) (b : LiveBlock) : HeapSys :=
  { s with world := s.world.dealloc b.ptr b.layout, live := s.live.erase b }

/-- The state after blocks were freed one after another. -/
def freeBlocks (s : HeapSys) (blocks : List LiveBlock) : HeapSys := blocks.foldl freeBlock s

variable {s t : HeapSys} {nodes : List Span} {b : LiveBlock} {blocks : List LiveBlock}

/-! ## The first round -/

theorem Inv.served (h : s.Inv nodes) (hserved : Served s blocks t) :
    ∃ nodes', t.Inv nodes' ∧ t.live = blocks + s.live := by
  induction hserved generalizing nodes with
  | nil => exact ⟨nodes, h, (zero_add _).symm⟩
  | @cons s s' t b blocks hwrap hptr hstep _ ih =>
    rcases h.allocFirstFit hwrap with ⟨-, hnull⟩ | ⟨pre, nd, post, w, rfl, -, -, hstep', hinv⟩
    · exact absurd (congrArg Prod.fst (Option.some.inj (hstep.symm.trans hnull))) hptr
    · obtain ⟨hb, hs'⟩ := Prod.mk.inj (Option.some.inj (hstep'.symm.trans hstep))
      have hlive : s'.live = b ::ₘ s.live := by
        rw [← hs', hb]
      obtain ⟨nodes', hinv', hlive'⟩ := ih (hs' ▸ hinv)
      refine ⟨nodes', hinv', ?_⟩
      rw [hlive', hlive, ← Multiset.cons_coe, Multiset.cons_add, Multiset.add_cons]

/-! ## Giving back -/

/-- A block that is given back is free as it was handed out, in front of the list. -/
theorem Inv.freeBlock (h : s.Inv nodes) (hb : b ∈ s.live) :
    (s.freeBlock b).Inv (b.span :: nodes) := by
  have hdvd := (minAlign_dvd_adjustLayout b.layout).1.trans (h.live_aligned b hb)
  have hfreed : freed b.ptr (adjustLayout b.layout).1 = [b.span] :=
    freed_of_dvd hdvd (minBlock_le_adjustLayout b.layout)
  have hinv : (s.freeBlock b).Inv (freed b.ptr (adjustLayout b.layout).1 ++ nodes) := h.dealloc hb
  rwa [hfreed] at hinv

theorem Inv.freeBlocks (h : s.Inv nodes) (hblocks : (blocks : Multiset LiveBlock) ≤ s.live) :
    (s.freeBlocks blocks).Inv ((blocks.map LiveBlock.span).reverse ++ nodes) ∧
      (s.freeBlocks blocks).live = s.live - blocks := by
  induction blocks generalizing s nodes with
  | nil => exact ⟨h, (Multiset.sub_zero _).symm⟩
  | cons b blocks ih =>
    rw [← Multiset.cons_coe] at hblocks ⊢
    have hb : b ∈ s.live := Multiset.mem_of_le hblocks (Multiset.mem_cons_self b _)
    have hrest : (blocks : Multiset LiveBlock) ≤ s.live.erase b := by
      have herase := Multiset.erase_le_erase b hblocks
      rwa [Multiset.erase_cons_head] at herase
    obtain ⟨hinv, hlive⟩ := ih (h.freeBlock hb) hrest
    rw [List.map_cons, List.reverse_cons, List.append_assoc, List.singleton_append]
    exact ⟨hinv, hlive.trans (Multiset.sub_cons b s.live blocks).symm⟩

/-! ## The second round -/

/-- A block of the size and the alignment of the request, in front of the list, is taken whole. -/
theorem Inv.alloc_front (h : s.Inv (b.span :: nodes))
    (halign : (adjustLayout b.layout).2 ∣ b.ptr) :
    s.NoWrap b.layout ∧ ∃ s', s.step (.alloc b.layout) = some (b.ptr, s') ∧ s'.Inv nodes ∧
      s'.live = b ::ₘ s.live := by
  have hceil : ceilAlign b.span.base (adjustLayout b.layout).2 = b.ptr :=
    ceilAlign_of_dvd (adjustLayout_align_pos b.layout) halign
  have hserves : b.span.Serves (adjustLayout b.layout).1 (adjustLayout b.layout).2 := by
    refine ⟨?_, .inr ?_⟩
    · rw [Span.Fits, hceil]
      exact le_refl _
    · rw [hceil]
      rfl
  -- the walk ends at the first block
  have hwrap : s.NoWrap b.layout := by
    intro nodes' hfree nd hnd
    obtain rfl := h.freeList.unique hfree
    rw [List.takeWhile_cons, if_neg (by simp [hserves])] at hnd
    cases hnd
  refine ⟨hwrap, ?_⟩
  rcases h.allocFirstFit hwrap with ⟨hnone, -⟩ | ⟨pre, nd, post, w, hnodes, hpre, -, hstep, hinv⟩
  · exact absurd hserves (hnone _ List.mem_cons_self)
  · cases pre with
    | cons c pre =>
      obtain ⟨rfl, -⟩ := List.cons.inj hnodes
      exact absurd hserves (hpre _ List.mem_cons_self)
    | nil =>
      obtain ⟨rfl, rfl⟩ := List.cons.inj hnodes
      have hcarve : carve (adjustLayout b.layout).1 (adjustLayout b.layout).2 b.span = [] :=
        carve_eq_nil halign (Nat.lt_add_of_pos_right (by decide))
      rw [hceil] at hstep hinv
      rw [hcarve] at hinv
      exact ⟨_, hstep, hinv, rfl⟩

theorem Inv.serve_front (h : s.Inv (blocks.map LiveBlock.span ++ nodes))
    (hblocks : ∀ b ∈ blocks, (adjustLayout b.layout).2 ∣ b.ptr ∧ b.ptr ≠ 0) :
    ∃ t, Served s blocks t ∧ t.Inv nodes ∧ t.live = blocks + s.live := by
  induction blocks generalizing s with
  | nil => exact ⟨s, .nil, h, (zero_add _).symm⟩
  | cons b blocks ih =>
    obtain ⟨⟨halign, hptr⟩, hrest⟩ := List.forall_mem_cons.mp hblocks
    obtain ⟨hwrap, s', hstep, hinv, hlive⟩ := h.alloc_front halign
    obtain ⟨t, hserved, hinv', hlive'⟩ := ih hinv hrest
    refine ⟨t, .cons hwrap hptr hstep hserved, hinv', ?_⟩
    rw [hlive', hlive, ← Multiset.cons_coe, Multiset.cons_add, Multiset.add_cons]

end HeapSys

open HeapSys in
/-- **Stack order.** Requests that were satisfied without wrapping, whose blocks are then freed in
the reverse order, are satisfied again with the same pointers, and leave the free list and the
counter as they were after the first time. -/
theorem heap_stack_order {s t : HeapSys} (hs : (heapSystem NoWrap).Reachable s)
    {blocks : List LiveBlock} (hserved : Served s blocks t) :
    ∃ t', Served (t.freeBlocks blocks.reverse) blocks t' ∧
      (∃ nodes, t.world.FreeList nodes ∧ t'.world.FreeList nodes) ∧
      t'.world.heap.allocated = t.world.heap.allocated := by
  obtain ⟨nodes₀, hinv₀⟩ := inv_of_reachable (fun _ _ _ _ h ↦ h) hs
  obtain ⟨nodes, hinv, hlive⟩ := hinv₀.served hserved
  have hle : (blocks : Multiset LiveBlock) ≤ t.live := hlive ▸ Multiset.le_add_right _ _
  have hle' : (blocks.reverse : Multiset LiveBlock) ≤ t.live := by rwa [Multiset.coe_reverse]
  obtain ⟨hfreed, hlive'⟩ := hinv.freeBlocks hle'
  rw [List.map_reverse, List.reverse_reverse] at hfreed
  have hblocks : ∀ b ∈ blocks, (adjustLayout b.layout).2 ∣ b.ptr ∧ b.ptr ≠ 0 := by
    intro b hb
    have hmem : b ∈ t.live := Multiset.mem_of_le hle hb
    exact ⟨hinv.live_aligned b hmem, (hinv.live_bounded hmem).1.ne'⟩
  obtain ⟨t', hserved', hinv', hlive''⟩ := hfreed.serve_front hblocks
  refine ⟨t', hserved', ⟨nodes, hinv.freeList, hinv'.freeList⟩, ?_⟩
  rw [hinv'.allocated, hinv.allocated, hlive'', hlive', Multiset.coe_reverse,
    add_tsub_cancel_of_le hle]

/-- A request for 64 bytes that begin a multiple of 64. -/
def alignedLayout : Layout := ⟨64, 64, ⟨6, rfl⟩, by decide⟩

/-- The page after a second request. -/
def pageTakenTwice : HeapSys :=
  ((pageTaken smallLayout).step (.alloc alignedLayout)).elim pageHeap Prod.snd

theorem step_eq_of_fst {s d : HeapSys} {call : HeapCall} {ptr : ℕ}
    (h : (s.step call).map Prod.fst = some ptr) :
    s.step call = some (ptr, (s.step call).elim d Prod.snd) := by
  obtain ⟨⟨ptr', t⟩, hstep, rfl⟩ := Option.map_eq_some_iff.mp h
  rw [hstep]
  rfl

open HeapSys in
/-- Two blocks of a page, of different alignments, freed and requested again. -/
theorem heap_stack_order_page : ∃ t', Served (pageTakenTwice.freeBlocks
      [⟨0x1040, alignedLayout⟩, ⟨0x1000, smallLayout⟩])
      [⟨0x1000, smallLayout⟩, ⟨0x1040, alignedLayout⟩] t' ∧
    (∃ nodes, pageTakenTwice.world.FreeList nodes ∧ t'.world.FreeList nodes) ∧
    t'.world.heap.allocated = pageTakenTwice.world.heap.allocated := by
  have hinv : pageHeap.Inv (freed 0x1000 0x1000) := inv_fresh (by decide) (by decide)
  have hreach : (heapSystem NoWrap).Reachable pageHeap :=
    .step (e := .init 0x1000 0x1000) reachable_boot ⟨⟨by decide, by decide, nofun⟩, rfl⟩
  have hfirst : pageHeap.step (.alloc smallLayout) = some (0x1000, pageTaken smallLayout) :=
    step_eq_of_fst (by decide +kernel)
  have hsecond : (pageTaken smallLayout).step (.alloc alignedLayout)
      = some (0x1040, pageTakenTwice) := step_eq_of_fst (by decide +kernel)
  have hwrap : pageHeap.NoWrap smallLayout := hinv.noWrap (by decide)
  have hserved : Served pageHeap [⟨0x1000, smallLayout⟩] (pageTaken smallLayout) :=
    .cons hwrap (by decide) hfirst .nil
  obtain ⟨nodes, hinv', -⟩ := hinv.served hserved
  have hwrap' : (pageTaken smallLayout).NoWrap alignedLayout := hinv'.noWrap (by decide +kernel)
  have htwice : Served pageHeap [⟨0x1000, smallLayout⟩, ⟨0x1040, alignedLayout⟩]
      pageTakenTwice := .cons hwrap (by decide) hfirst (.cons hwrap' (by decide) hsecond .nil)
  exact heap_stack_order hreach htwice

end Zeroxos
