import Zeroxos.Kernel.HeapSafety

/-!
# Oversized requests

The fit test compares two machine words, and nothing checks that the end of the request has not
wrapped. A request that wraps in a block is taken to fit there, since what is left after wrapping
is below the block.

## The condition

Whether a request too large for every region is refused is decided by wrapping alone
(`refuses_oversized_iff`). In runs whose requests do not wrap the heap stays inside its regions, and
in the states such a run reaches an oversized request is refused, with nothing changed, exactly when
it does not wrap: a block that wraps is taken, and the counter of allocated bytes shows it.

The early heap lies in the top 2 GiB of the address space, where a request of 2 GiB wraps.
-/

namespace Zeroxos

open HeapMem

namespace HeapSys

variable {s : HeapSys} {nodes : List Span} {layout : Layout}

/-- No region has room for the request at any address of the right alignment. -/
def Oversized (s : HeapSys) (layout : Layout) : Prop :=
  ∀ r ∈ s.regions, ∀ p, (adjustLayout layout).2 ∣ p → r.base ≤ p →
    r.base + r.len < p + (adjustLayout layout).1

/-- A request that is refused, with nothing changed. -/
def Refuses (s : HeapSys) (layout : Layout) : Prop := s.step (.alloc layout) = some (0, s)

theorem Inv.not_serves_of_oversized (h : s.Inv nodes) (hlarge : s.Oversized layout) {nd : Span}
    (hnd : nd ∈ nodes) : ¬nd.Serves (adjustLayout layout).1 (adjustLayout layout).2 := by
  rintro ⟨hfits, -⟩
  obtain ⟨r, hr, hlo, hhi⟩ := h.node_within nd hnd
  have hle : nd.base ≤ ceilAlign nd.base (adjustLayout layout).2 :=
    le_ceilAlign (adjustLayout_align_pos layout)
  have hlt := hlarge r hr _ (dvd_ceilAlign nd.base _) (hlo.trans hle)
  unfold Span.Fits at hfits
  omega

theorem Inv.refuses_of_noWrap (h : s.Inv nodes) (hlarge : s.Oversized layout)
    (hguard : s.NoWrap layout) : s.Refuses layout := by
  rcases h.allocFirstFit hguard with ⟨-, hstep⟩ | ⟨pre, nd, post, _, rfl, -, hserves, -⟩
  · exact hstep
  · have hnd : nd ∈ pre ++ nd :: post := List.mem_append_right _ List.mem_cons_self
    exact absurd hserves (h.not_serves_of_oversized hlarge hnd)

/-- A block that wraps is taken, and the counter shows it. -/
theorem Inv.noWrap_of_refuses (h : s.Inv nodes) (hrefuses : s.Refuses layout) :
    s.NoWrap layout := by
  intro nodes' hfree nd hnd hwraps
  obtain rfl := h.freeList.unique hfree
  rcases h.freeList.allocFirstFit layout h.freeSpans fun nd hnd ↦ (h.node_bounded hnd).2 with
    ⟨hnone, -⟩ | ⟨pre, c, post, -, -, -, heq⟩
  · exact hnone nd (List.takeWhile_subset _ hnd) (.inr hwraps)
  · rw [Refuses, step, heq, Option.map_some, Option.some_inj] at hrefuses
    have hworld : (HeapMem.takeRegion (pre.getLast?.map Span.base) c.base (adjustLayout layout).1
        (adjustLayout layout).2 s.world).2 = s.world := congrArg (fun x ↦ x.2.world) hrefuses
    have hallocated := congrArg (fun w ↦ w.heap.allocated) hworld
    rw [HeapMem.takeRegion_eq, HeapMem.setAllocated_allocated] at hallocated
    have hlt := (h.live_le_total.trans_lt (sum_len_lt h.nodup h.bounded))
    rw [← h.allocated] at hlt
    have hpos := minBlock_le_adjustLayout layout
    have hle := (adjustLayout_size layout).2
    rw [minBlock] at hpos
    rw [wadd, wordSize] at hallocated
    rw [wordSize] at hlt
    omega

end HeapSys

/-- **Oversized requests.** In the runs whose requests do not wrap, every block is inside a region,
and a request larger than every region is refused, with nothing changed, exactly when it does not
wrap in a free block. -/
theorem refuses_oversized_iff {s : HeapSys} (hs : (heapSystem HeapSys.NoWrap).Reachable s) :
    (∃ nodes, s.Safe nodes) ∧
      ∀ layout, s.Oversized layout → (s.Refuses layout ↔ s.NoWrap layout) := by
  obtain ⟨nodes, hinv⟩ := HeapSys.inv_of_reachable (fun _ _ _ _ hguard ↦ hguard) hs
  exact ⟨⟨nodes, hinv.safe⟩, fun _ hlarge ↦
    ⟨hinv.noWrap_of_refuses, hinv.refuses_of_noWrap hlarge⟩⟩

/-- The heap of `kmain`, 1 MiB at the kernel's link address. -/
def earlyHeap : HeapSys :=
  { HeapSys.boot with
    world := HeapSys.boot.world.init 0xffffffff80200000 0x100000
    regions := [⟨0xffffffff80200000, 0x100000⟩] }

theorem reachable_earlyHeap {guard : HeapSys → Layout → Prop} :
    (heapSystem guard).Reachable earlyHeap :=
  .step HeapSys.reachable_boot (e := .init 0xffffffff80200000 0x100000)
    ⟨⟨by decide, by decide, fun _ h ↦ absurd h List.not_mem_nil⟩, rfl⟩

/-- A request of nearly 2 GiB. -/
def hugeLayout : Layout := ⟨0x7fe01000, 8, ⟨3, rfl⟩, by decide⟩

theorem oversized_earlyHeap : earlyHeap.Oversized hugeLayout := by
  intro r hr p _ hp
  obtain rfl := List.mem_singleton.mp hr
  have hsize : (HeapMem.adjustLayout hugeLayout).1 = 0x7fe01000 := by decide +kernel
  rw [hsize]
  dsimp only at hp ⊢
  omega

/-- The theorem at the early heap. -/
theorem refuses_oversized_iff_earlyHeap :
    earlyHeap.Refuses hugeLayout ↔ earlyHeap.NoWrap hugeLayout :=
  (refuses_oversized_iff reachable_earlyHeap).2 hugeLayout oversized_earlyHeap

/-- **A request of nearly 2 GiB is served from the 1 MiB early heap**: the end wraps to `0x1000`. -/
theorem oversized_served :
    ¬∀ s : HeapSys, (heapSystem fun _ _ ↦ True).Reachable s → ∀ layout, s.Oversized layout →
      s.Refuses layout := by
  intro h
  have hrefuses := h earlyHeap reachable_earlyHeap hugeLayout oversized_earlyHeap
  have hptr : (earlyHeap.step (.alloc hugeLayout)).map Prod.fst = some 0xffffffff80200000 := by
    decide +kernel
  rw [show earlyHeap.step (.alloc hugeLayout) = some (0, earlyHeap) from hrefuses] at hptr
  exact absurd hptr (by decide)

end Zeroxos
