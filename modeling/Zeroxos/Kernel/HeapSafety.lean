import Zeroxos.Kernel.HeapList
import Zeroxos.Library.Transition
import Mathlib.Tactic.Abel

/-!
# The kernel heap keeps blocks apart

A run initialises regions and makes `alloc_first_fit` and `dealloc` calls in any order; between the
calls a client writes what it likes into its own live blocks. The heap remembers neither its regions
nor what it handed out, so the system carries both next to it.

## What a request may assume

The contract of a request is a parameter, `guard`, because two of them are of interest: that no end
of any region is near the top of the address space (`FarFromTop`), and, more precisely, that no free
block the walk meets makes the end of the request wrap (`NoWrap`). The first speaks of the request
and the regions only, the second is what the proofs use.

## The invariant

The invariant has one sum at its centre: the bytes of the free spans and of the live blocks are,
together and with multiplicity, among the bytes of the regions. A request moves bytes from the first
side to the second, a release moves them back, and bytes too few for a header drop out. So the sum
is an inequality, where that of the buddy allocator is an equation. That a store of a client hits no
header follows from it.
-/

namespace Zeroxos

open HeapMem

/-! ## The system -/

/-- A block handed out and not freed. -/
structure LiveBlock where
  ptr : ℕ
  layout : Layout
deriving DecidableEq

namespace LiveBlock

/-- The adjusted size of a block. -/
def size (b : LiveBlock) : ℕ := (adjustLayout b.layout).1

/-- The bytes the block owns. -/
def span (b : LiveBlock) : Span := ⟨b.ptr, b.size⟩

/-- The bytes the block owns, as a set. -/
def cells (b : LiveBlock) : Finset ℕ := b.span.cells

theorem card_cells (b : LiveBlock) : b.cells.card = b.size := b.span.card_cells

end LiveBlock

/-- What happens to a heap. -/
inductive HeapCall
  | init (start size : ℕ)
  | alloc (layout : Layout)
  | dealloc (ptr : ℕ) (layout : Layout)
  /-- A client stores a word. -/
  | store (addr value : ℕ)

/-- The heap, and what its clients know. -/
structure HeapSys where
  world : HeapMem
  /-- The regions given to the heap. -/
  regions : List Span
  /-- The blocks handed out and not freed. -/
  live : Multiset LiveBlock

namespace HeapSys

/-- One call and the pointer it returns, null for the calls that return none. The outcome is `none`
when the walk of the free list never ends. -/
def step (s : HeapSys) : HeapCall → Option (ℕ × HeapSys)
  | .init start size =>
    some (0, { s with world := s.world.init start size, regions := ⟨start, size⟩ :: s.regions })
  | .alloc layout =>
    (s.world.allocFirstFit layout).map fun (ptr, w) ↦
      (ptr, { s with world := w, live := if ptr = 0 then s.live else ⟨ptr, layout⟩ ::ₘ s.live })
  | .dealloc ptr layout =>
    some (0, { s with world := s.world.dealloc ptr layout, live := s.live.erase ⟨ptr, layout⟩ })
  | .store addr value =>
    some (0, { s with world := { s.world with mem := Function.update s.world.mem addr value } })

/-- What a call may assume: a region is not null, does not wrap and is disjoint from the regions
before it, a block is freed while live and with its own layout, and a client stays inside its
blocks. -/
def Legal (guard : HeapSys → Layout → Prop) (s : HeapSys) : HeapCall → Prop
  | .init start size =>
    0 < start ∧ start + size ≤ wordSize ∧ ∀ r ∈ s.regions, Span.Apart 0 ⟨start, size⟩ r
  | .alloc layout => guard s layout
  | .dealloc ptr layout => ⟨ptr, layout⟩ ∈ s.live
  | .store addr _ => ∃ b ∈ s.live, minAlign ∣ addr ∧ Span.Within ⟨addr, minAlign⟩ b.span

instance (guard : HeapSys → Layout → Prop) [∀ s layout, Decidable (guard s layout)] (s : HeapSys) :
    (call : HeapCall) → Decidable (s.Legal guard call)
  | .init _ _ => inferInstanceAs (Decidable (_ ∧ _))
  | .alloc layout => inferInstanceAs (Decidable (guard s layout))
  | .dealloc _ _ => inferInstanceAs (Decidable (_ ∈ _))
  | .store addr _ => Multiset.decidableExistsMultiset (m := s.live) (p := fun b : LiveBlock ↦
      minAlign ∣ addr ∧ Span.Within ⟨addr, minAlign⟩ b.span)

/-- The heap and its contract, `guard` being the contract of a request. A run starts with an empty
heap over memory that holds anything. -/
def machine (guard : HeapSys → Layout → Prop) : Machine HeapSys HeapCall where
  init s := s.world.heap = Heap.empty ∧ s.regions = [] ∧ s.live = 0
  Legal := Legal guard
  next s call := (s.step call).map Prod.snd

instance (guard : HeapSys → Layout → Prop) [∀ s layout, Decidable (guard s layout)] (s : HeapSys)
    (call : HeapCall) : Decidable ((machine guard).Legal s call) :=
  inferInstanceAs (Decidable (s.Legal guard call))

end HeapSys

/-- The runs of the heap in which every request meets `guard`. -/
def heapSystem (guard : HeapSys → Layout → Prop) : TransitionSystem HeapSys HeapCall :=
  (HeapSys.machine guard).system

namespace HeapSys

variable {s s' : HeapSys} {nodes : List Span} {layout : Layout} {nd c : Span} {b : LiveBlock}

/-- No free block that the walk meets, up to the one that serves the request, makes the end of the
request wrap. -/
def NoWrap (s : HeapSys) (layout : Layout) : Prop :=
  ∀ nodes, s.world.FreeList nodes →
    ∀ nd ∈ nodes.takeWhile fun nd ↦ ¬nd.Serves (adjustLayout layout).1 (adjustLayout layout).2,
      ¬nd.Wraps (adjustLayout layout).1 (adjustLayout layout).2

/-- Every region ends so far below the top that no request can wrap. -/
def FarFromTop (s : HeapSys) (layout : Layout) : Prop :=
  ∀ r ∈ s.regions, r.base + r.len + (adjustLayout layout).1 + layout.align < wordSize

instance (s : HeapSys) (layout : Layout) : Decidable (s.FarFromTop layout) :=
  inferInstanceAs (Decidable (∀ r ∈ s.regions, _))

/-- An empty heap over zeroed memory. -/
def boot : HeapSys := ⟨⟨Heap.empty, fun _ ↦ 0⟩, [], 0⟩

theorem reachable_boot {guard : HeapSys → Layout → Prop} :
    (machine guard).system.Reachable boot := .init ⟨rfl, rfl, rfl⟩

/-! ## The invariant -/

/-- **The invariant**, with the free list in memory given as a list of spans. -/
structure Inv (s : HeapSys) (nodes : List Span) : Prop where
  freeList : s.world.FreeList nodes
  node_aligned : ∀ nd ∈ nodes, minAlign ∣ nd.base
  node_len : ∀ nd ∈ nodes, minBlock ≤ nd.len
  node_within : ∀ nd ∈ nodes, ∃ r ∈ s.regions, nd.Within r
  live_aligned : ∀ b ∈ s.live, (adjustLayout b.layout).2 ∣ b.ptr
  live_within : ∀ b ∈ s.live, ∃ r ∈ s.regions, b.span.Within r
  cover_le : cover Span.cells nodes + cover LiveBlock.cells s.live ≤ cover Span.cells s.regions
  nodup : (cover Span.cells s.regions).Nodup
  bounded : ∀ r ∈ s.regions, 0 < r.base ∧ r.base + r.len ≤ wordSize
  allocated : s.world.heap.allocated = (s.live.map LiveBlock.size).sum
  total : s.world.heap.total = (s.regions.map Span.len).sum

/-- What the invariant asks of a free span on its own. -/
def Kept (regions : List Span) (c : Span) : Prop :=
  minAlign ∣ c.base ∧ minBlock ≤ c.len ∧ ∃ r ∈ regions, c.Within r

theorem kept_of_mem_freed {regions : List Span} {r : Span} {addr n : ℕ} (hr : r ∈ regions)
    (hwithin : Span.Within ⟨addr, n⟩ r) (hc : c ∈ freed addr n) : Kept regions c := by
  obtain ⟨hle, hdvd, hlen⟩ := of_mem_freed hc
  exact ⟨hdvd, hlen, r, hr, hle.trans hwithin⟩

/-- Disjoint spans that avoid null have fewer bytes than there are addresses. -/
theorem sum_len_lt {regions : List Span} (hnodup : (cover Span.cells regions).Nodup)
    (hbounded : ∀ r ∈ regions, 0 < r.base ∧ r.base + r.len ≤ wordSize) :
    (regions.map Span.len).sum < wordSize := by
  have hcard : (cover Span.cells regions).card = (regions.map Span.len).sum := by
    rw [card_cover, Multiset.map_coe, Multiset.sum_coe]
    congr 1
    exact List.map_congr_left fun r _ ↦ r.card_cells
  have hle := card_le_of_nodup 1 wordSize hnodup fun p hp ↦ by
    obtain ⟨r, hr, hpr⟩ := mem_cover.mp hp
    obtain ⟨hlo, hhi⟩ := Span.mem_cells.mp hpr
    obtain ⟨hpos, hend⟩ := hbounded r hr
    omega
  have : 0 < wordSize := by norm_num [wordSize]
  omega

namespace Inv

theorem nodup_add (h : s.Inv nodes) :
    (cover Span.cells nodes + cover LiveBlock.cells s.live).Nodup :=
  Multiset.nodup_of_le h.cover_le h.nodup

theorem kept (h : s.Inv nodes) : ∀ c ∈ nodes, Kept s.regions c :=
  fun c hc ↦ ⟨h.node_aligned c hc, h.node_len c hc, h.node_within c hc⟩

theorem node_bounded (h : s.Inv nodes) (hnd : nd ∈ nodes) :
    0 < nd.base ∧ nd.base + nd.len ≤ wordSize := by
  obtain ⟨r, hr, hlo, hhi⟩ := h.node_within nd hnd
  obtain ⟨hpos, hend⟩ := h.bounded r hr
  exact ⟨hpos.trans_le hlo, hhi.trans hend⟩

theorem ceilAlign_ne_zero (h : s.Inv nodes) (hnd : nd ∈ nodes) (layout : Layout) :
    ceilAlign nd.base (adjustLayout layout).2 ≠ 0 :=
  ((h.node_bounded hnd).1.trans_le (le_ceilAlign (adjustLayout_align_pos layout))).ne'

theorem live_bounded (h : s.Inv nodes) (hb : b ∈ s.live) :
    0 < b.ptr ∧ b.ptr + b.size ≤ wordSize := by
  obtain ⟨r, hr, hlo, hhi⟩ := h.live_within b hb
  obtain ⟨hpos, hend⟩ := h.bounded r hr
  exact ⟨hpos.trans_le hlo, hhi.trans hend⟩

theorem node_pairwise (h : s.Inv nodes) :
    nodes.Pairwise fun a b ↦ Disjoint a.cells b.cells := by
  have hsymm : Std.Symm fun a b : Span ↦ Disjoint a.cells b.cells := ⟨fun _ _ h ↦ h.symm⟩
  exact Multiset.pairwise_coe_iff_pairwise.mp
    (pairwise_disjoint_of_nodup_cover (Multiset.nodup_add.mp h.nodup_add).1)

theorem live_pairwise (h : s.Inv nodes) :
    s.live.Pairwise fun a b ↦ Disjoint a.cells b.cells :=
  pairwise_disjoint_of_nodup_cover (Multiset.nodup_add.mp h.nodup_add).2.1

theorem node_disjoint_live (h : s.Inv nodes) (hnd : nd ∈ nodes) (hb : b ∈ s.live) :
    Disjoint nd.cells b.cells := by
  have hdisjoint := (Multiset.nodup_add.mp h.nodup_add).2.2
  refine Finset.disjoint_left.mpr fun p hp hpb ↦ ?_
  exact Multiset.disjoint_left.mp hdisjoint (mem_cover.mpr ⟨nd, hnd, hp⟩)
    (mem_cover.mpr ⟨b, hb, hpb⟩)

theorem freeSpans (h : s.Inv nodes) : FreeSpans nodes where
  pos _ hnd := (h.node_bounded hnd).1
  minBlock_le := h.node_len
  apart := h.node_pairwise.imp Span.apart_of_disjoint

theorem live_le_total (h : s.Inv nodes) :
    (cover Span.cells nodes).card + (s.live.map LiveBlock.size).sum
      ≤ (s.regions.map Span.len).sum := by
  have hcard := Multiset.card_le_card h.cover_le
  rw [Multiset.card_add, card_cover s.live, card_cover (s.regions : Multiset Span),
    Multiset.map_coe, Multiset.sum_coe, Multiset.map_congr rfl fun b _ ↦ b.card_cells,
    List.map_congr_left fun r _ ↦ r.card_cells] at hcard
  exact hcard

end Inv

/-! ## What a request takes and leaves -/

theorem kept_of_mem_carve {regions : List Span} {r : Span} {size align : ℕ} (halign : 0 < align)
    (hfits : nd.Fits size align) (hr : r ∈ regions) (hwithin : nd.Within r)
    (hc : c ∈ carve size align nd) : Kept regions c := by
  have hle := le_ceilAlign (a := nd.base) halign
  unfold Span.Fits at hfits
  rcases List.mem_append.mp hc with hc | hc
  · refine kept_of_mem_freed hr (Span.Within.trans ⟨?_, ?_⟩ hwithin) hc <;> dsimp only <;> omega
  · refine kept_of_mem_freed hr (Span.Within.trans ⟨?_, ?_⟩ hwithin) hc <;> dsimp only <;> omega

theorem cover_carve_le {size align : ℕ} (halign : 0 < align) (hfits : nd.Fits size align) :
    cover Span.cells (carve size align nd) + (⟨ceilAlign nd.base align, size⟩ : Span).cells.val
      ≤ nd.cells.val := by
  -- the block is padding, the request and a tail
  obtain ⟨pad, hpad⟩ := Nat.exists_eq_add_of_le (le_ceilAlign (a := nd.base) halign)
  obtain ⟨tail, htail⟩ := Nat.exists_eq_add_of_le hfits
  have hnd : nd = ⟨nd.base, pad + (size + tail)⟩ := by
    have hlen : nd.len = pad + (size + tail) := by omega
    rw [← hlen]
  have hcut : nd.cells.val = (⟨nd.base, pad⟩ : Span).cells.val
      + ((⟨ceilAlign nd.base align, size⟩ : Span).cells.val
        + (⟨ceilAlign nd.base align + size, tail⟩ : Span).cells.val) := by
    conv_lhs => rw [hnd]
    rw [Span.cells_val_cut, Span.cells_val_cut, ← hpad]
  rw [carve, ← Multiset.coe_add, cover_add, htail, Nat.add_sub_cancel_left, hpad,
    Nat.add_sub_cancel_left, ← hpad, hcut]
  calc cover Span.cells (freed (ceilAlign nd.base align + size) tail)
        + cover Span.cells (freed nd.base pad) + (⟨ceilAlign nd.base align, size⟩ : Span).cells.val
      ≤ (⟨ceilAlign nd.base align + size, tail⟩ : Span).cells.val
        + (⟨nd.base, pad⟩ : Span).cells.val + (⟨ceilAlign nd.base align, size⟩ : Span).cells.val :=
        add_le_add_left (add_le_add (cover_freed_le _ _) (cover_freed_le _ _)) _
    _ = _ := by abel

/-! ## One call -/

theorem inv_of_init (hs : s.world.heap = Heap.empty ∧ s.regions = [] ∧ s.live = 0) :
    s.Inv [] := by
  obtain ⟨hheap, hregions, hlive⟩ := hs
  refine ⟨⟨?_, ?_⟩, ?_, ?_, ?_, ?_, ?_, ?_, ?_, ?_, ?_, ?_⟩ <;>
    simp [hheap, hregions, hlive, Heap.empty, Chain.nil_iff]

theorem Inv.init (h : s.Inv nodes) {start size : ℕ} (hpos : 0 < start)
    (hend : start + size ≤ wordSize) (hapart : ∀ r ∈ s.regions, Span.Apart 0 ⟨start, size⟩ r) :
    Inv { s with world := s.world.init start size, regions := ⟨start, size⟩ :: s.regions }
      (freed start size ++ nodes) := by
  have hnodes : ∀ c ∈ nodes, Span.Apart 0 ⟨start, size⟩ c := by
    intro c hc
    obtain ⟨r, hr, hwithin⟩ := h.node_within c hc
    exact (hapart r hr).of_within hwithin
  have hfree := h.freeList.addFreeRegion h.freeSpans hpos hend hnodes
  have hcover : cover Span.cells ((⟨start, size⟩ :: s.regions : List Span) : Multiset Span)
      = (⟨start, size⟩ : Span).cells.val + cover Span.cells s.regions := by
    rw [← Multiset.cons_coe, cover_cons]
  have hnew : Disjoint (⟨start, size⟩ : Span).cells.val (cover Span.cells s.regions) := by
    refine Multiset.disjoint_left.mpr fun {p} hp hpr ↦ ?_
    obtain ⟨r, hr, hpr⟩ := mem_cover.mp hpr
    exact Finset.disjoint_left.mp (hapart r hr).disjoint hp hpr
  have hnodup :
      (cover Span.cells ((⟨start, size⟩ :: s.regions : List Span) : Multiset Span)).Nodup := by
    rw [hcover]
    exact Multiset.nodup_add.mpr ⟨Finset.nodup _, h.nodup, hnew⟩
  have hbounded : ∀ r ∈ (⟨start, size⟩ :: s.regions : List Span),
      0 < r.base ∧ r.base + r.len ≤ wordSize := List.forall_mem_cons.mpr ⟨⟨hpos, hend⟩, h.bounded⟩
  have hkept : ∀ c ∈ freed start size ++ nodes, Kept (⟨start, size⟩ :: s.regions) c := by
    refine List.forall_mem_append.mpr ⟨fun c hc ↦ ?_, fun c hc ↦ ?_⟩
    · exact kept_of_mem_freed List.mem_cons_self ⟨le_rfl, le_rfl⟩ hc
    · obtain ⟨hdvd, hlen, r, hr, hwithin⟩ := h.kept c hc
      exact ⟨hdvd, hlen, r, List.mem_cons_of_mem _ hr, hwithin⟩
  rw [init_eq]
  refine
    { freeList := hfree.setTotal _
      node_aligned := fun c hc ↦ (hkept c hc).1
      node_len := fun c hc ↦ (hkept c hc).2.1
      node_within := fun c hc ↦ (hkept c hc).2.2
      live_aligned := h.live_aligned
      live_within := fun b hb ↦ ?_
      cover_le := ?_
      nodup := hnodup
      bounded := hbounded
      allocated := ?_
      total := ?_ }
  · obtain ⟨r, hr, hwithin⟩ := h.live_within b hb
    exact ⟨r, List.mem_cons_of_mem _ hr, hwithin⟩
  · rw [← Multiset.coe_add, cover_add, add_assoc]
    show _ ≤ cover Span.cells ((⟨start, size⟩ :: s.regions : List Span) : Multiset Span)
    rw [hcover]
    exact add_le_add (cover_freed_le start size) h.cover_le
  · rw [setTotal_allocated, addFreeRegion_allocated, h.allocated]
  · have hlt : size + (s.regions.map Span.len).sum < wordSize := by
      have := sum_len_lt hnodup hbounded
      rwa [List.map_cons, List.sum_cons] at this
    rw [setTotal_total, h.total, List.map_cons, List.sum_cons, wadd_of_lt (by omega), add_comm]

/-- A request that is served: the block moves from the free side to the live side. -/
theorem Inv.alloc {pre post : List Span} {w : HeapMem} (h : s.Inv (pre ++ nd :: post))
    (hserves : nd.Serves (adjustLayout layout).1 (adjustLayout layout).2)
    (hfree : w.FreeList (carve (adjustLayout layout).1 (adjustLayout layout).2 nd ++ (pre ++ post)))
    (hallocated : w.heap.allocated = wadd s.world.heap.allocated (adjustLayout layout).1)
    (htotal : w.heap.total = s.world.heap.total) :
    Inv { s with
        world := w
        live := ⟨ceilAlign nd.base (adjustLayout layout).2, layout⟩ ::ₘ s.live }
      (carve (adjustLayout layout).1 (adjustLayout layout).2 nd ++ (pre ++ post)) := by
  have halign := adjustLayout_align_pos layout
  have hmem : ∀ c ∈ pre ++ post, c ∈ pre ++ nd :: post := fun c hc ↦ by
    rcases List.mem_append.mp hc with hc | hc
    · exact List.mem_append_left _ hc
    · exact List.mem_append_right _ (List.mem_cons_of_mem nd hc)
  have hnd : nd ∈ pre ++ nd :: post := List.mem_append_right _ List.mem_cons_self
  obtain ⟨r, hr, hwithin⟩ := h.node_within nd hnd
  have hcover := cover_carve_le halign hserves.1
  have hcells : cover Span.cells ((pre ++ nd :: post : List Span) : Multiset Span)
      = nd.cells.val + cover Span.cells ((pre ++ post : List Span) : Multiset Span) := by
    rw [Multiset.coe_eq_coe.mpr List.perm_middle, ← Multiset.cons_coe, cover_cons]
  have hkept : ∀ c ∈ carve (adjustLayout layout).1 (adjustLayout layout).2 nd ++ (pre ++ post),
      Kept s.regions c :=
    List.forall_mem_append.mpr ⟨fun _ hc ↦ kept_of_mem_carve halign hserves.1 hr hwithin hc,
      fun c hc ↦ h.kept c (hmem c hc)⟩
  refine
    { freeList := hfree
      node_aligned := fun c hc ↦ (hkept c hc).1
      node_len := fun c hc ↦ (hkept c hc).2.1
      node_within := fun c hc ↦ (hkept c hc).2.2
      live_aligned := fun b hb ↦ ?_
      live_within := fun b hb ↦ ?_
      cover_le := ?_
      nodup := h.nodup
      bounded := h.bounded
      allocated := ?_
      total := htotal.trans h.total }
  · rcases Multiset.mem_cons.mp hb with rfl | hb
    · exact dvd_ceilAlign nd.base _
    · exact h.live_aligned b hb
  · rcases Multiset.mem_cons.mp hb with rfl | hb
    · exact ⟨r, hr, Span.Within.trans ⟨le_ceilAlign halign, hserves.1⟩ hwithin⟩
    · exact h.live_within b hb
  · refine le_trans ?_ h.cover_le
    rw [← Multiset.coe_add, cover_add, cover_cons, hcells]
    calc _ = (cover Span.cells (carve (adjustLayout layout).1 (adjustLayout layout).2 nd)
          + (⟨ceilAlign nd.base (adjustLayout layout).2, (adjustLayout layout).1⟩ : Span).cells.val)
          + (cover Span.cells ((pre ++ post : List Span) : Multiset Span)
            + cover LiveBlock.cells s.live) := by
          rw [LiveBlock.cells, LiveBlock.span, LiveBlock.size]
          abel
      _ ≤ nd.cells.val + (cover Span.cells ((pre ++ post : List Span) : Multiset Span)
            + cover LiveBlock.cells s.live) := add_le_add_left hcover _
      _ = _ := (add_assoc _ _ _).symm
  · -- the new block was free, so the sum of the sizes is still a word
    have hle := h.live_le_total
    have hlt := sum_len_lt h.nodup h.bounded
    have hfits : (adjustLayout layout).1 ≤ nd.len := by
      have := le_ceilAlign (a := nd.base) halign
      have := hserves.1
      unfold Span.Fits at this
      omega
    rw [hcells, Multiset.card_add, Finset.card_val, Span.card_cells] at hle
    rw [hallocated, h.allocated, Multiset.map_cons, Multiset.sum_cons, wadd_of_lt (by omega),
      LiveBlock.size, add_comm]

theorem Inv.allocated_erase (h : s.Inv nodes) (hb : b ∈ s.live) :
    s.world.heap.allocated = b.size + ((s.live.erase b).map LiveBlock.size).sum := by
  rw [h.allocated, ← Multiset.sum_cons, ← Multiset.map_cons, Multiset.cons_erase hb]

theorem Inv.dealloc (h : s.Inv nodes) {ptr : ℕ} (hb : (⟨ptr, layout⟩ : LiveBlock) ∈ s.live) :
    Inv { s with world := s.world.dealloc ptr layout, live := s.live.erase ⟨ptr, layout⟩ }
      (freed ptr (adjustLayout layout).1 ++ nodes) := by
  obtain ⟨r, hr, hwithin⟩ := h.live_within _ hb
  obtain ⟨hpos, hend⟩ := h.live_bounded hb
  have hapart : ∀ c ∈ nodes, Span.Apart 0 ⟨ptr, (adjustLayout layout).1⟩ c := fun c hc ↦
    Span.apart_of_disjoint (h.node_disjoint_live hc hb).symm
  have hfree := h.freeList.addFreeRegion h.freeSpans hpos hend hapart
  have hkept : ∀ c ∈ freed ptr (adjustLayout layout).1 ++ nodes, Kept s.regions c :=
    List.forall_mem_append.mpr ⟨fun _ hc ↦ kept_of_mem_freed hr hwithin hc, h.kept⟩
  rw [dealloc_eq]
  refine
    { freeList := hfree.setAllocated _
      node_aligned := fun c hc ↦ (hkept c hc).1
      node_len := fun c hc ↦ (hkept c hc).2.1
      node_within := fun c hc ↦ (hkept c hc).2.2
      live_aligned := fun b hb ↦ h.live_aligned b (Multiset.mem_of_mem_erase hb)
      live_within := fun b hb ↦ h.live_within b (Multiset.mem_of_mem_erase hb)
      cover_le := ?_
      nodup := h.nodup
      bounded := h.bounded
      allocated := ?_
      total := ?_ }
  · refine le_trans ?_ h.cover_le
    rw [← Multiset.coe_add, cover_add, cover_erase hb]
    calc _ ≤ (⟨ptr, (adjustLayout layout).1⟩ : Span).cells.val + cover Span.cells nodes
          + cover LiveBlock.cells (s.live.erase ⟨ptr, layout⟩) :=
          add_le_add_left (add_le_add_left (cover_freed_le _ _) _) _
      _ = _ := by
        rw [LiveBlock.cells, LiveBlock.span, LiveBlock.size]
        abel
  · have hsum := h.allocated_erase hb
    have hlt := sum_len_lt h.nodup h.bounded
    have hle := h.live_le_total
    rw [← h.allocated] at hle
    rw [LiveBlock.size] at hsum
    rw [setAllocated_allocated, wsub_of_le (by rw [hsum]; exact Nat.le_add_right _ _) (by omega),
      hsum, Nat.add_sub_cancel_left]
  · rw [setAllocated_total, addFreeRegion_total, h.total]

/-- A client writing into its own block: no header is there. -/
theorem Inv.store (h : s.Inv nodes) {addr value : ℕ} (hb : b ∈ s.live)
    (haddr : Span.Within ⟨addr, minAlign⟩ b.span) :
    Inv { s with world := { s.world with mem := Function.update s.world.mem addr value } }
      nodes := by
  refine { h with freeList := h.freeList.congr fun nd hnd ↦ ?_ }
  have hlen := h.node_len nd hnd
  rw [minBlock] at hlen
  have hne : ∀ p ∈ nd.cells, p ≠ addr := by
    rintro p hp rfl
    refine Finset.disjoint_left.mp (h.node_disjoint_live hnd hb) hp (haddr.cells_subset ?_)
    exact Span.mem_cells.mpr ⟨le_rfl, Nat.lt_add_of_pos_right (by norm_num [minAlign])⟩
  have hsize : nd.base ≠ addr := hne _ (Span.mem_cells.mpr (by omega))
  have hnext : nd.base + 8 ≠ addr := hne _ (Span.mem_cells.mpr (by omega))
  rw [readBlock, readBlock, Function.update_of_ne hsize, Function.update_of_ne hnext]

/-! ## Every run -/

theorem Inv.allocFirstFit (h : s.Inv nodes) (hguard : s.NoWrap layout) :
    ((∀ nd ∈ nodes, ¬nd.Serves (adjustLayout layout).1 (adjustLayout layout).2) ∧
      s.step (.alloc layout) = some (0, s)) ∨
    ∃ pre nd post w, nodes = pre ++ nd :: post ∧
      (∀ c ∈ pre, ¬c.Serves (adjustLayout layout).1 (adjustLayout layout).2) ∧
      nd.Serves (adjustLayout layout).1 (adjustLayout layout).2 ∧
      s.step (.alloc layout) = some (ceilAlign nd.base (adjustLayout layout).2,
        { s with
          world := w
          live := ⟨ceilAlign nd.base (adjustLayout layout).2, layout⟩ ::ₘ s.live }) ∧
      Inv { s with
          world := w
          live := ⟨ceilAlign nd.base (adjustLayout layout).2, layout⟩ ::ₘ s.live }
        (carve (adjustLayout layout).1 (adjustLayout layout).2 nd ++ (pre ++ post)) := by
  obtain ⟨k, -, hk63, hk, -⟩ := adjustLayout_align layout
  have hsize : 0 < (adjustLayout layout).1 :=
    (by norm_num [minBlock] : 0 < minBlock).trans_le (minBlock_le_adjustLayout layout)
  rcases h.freeList.allocFirstFit layout h.freeSpans fun nd hnd ↦ (h.node_bounded hnd).2 with
    ⟨hnone, heq⟩ | ⟨pre, nd, post, rfl, hpre, hnd, heq⟩
  · refine .inl ⟨fun nd hnd hserves ↦ hnone nd hnd (.inl hserves), ?_⟩
    rw [step, heq]
    rfl
  · have hmem : nd ∈ pre ++ nd :: post := List.mem_append_right _ List.mem_cons_self
    -- a block taken without serving would wrap, and the walk meets it
    have hserves : nd.Serves (adjustLayout layout).1 (adjustLayout layout).2 := by
      by_contra hnot
      refine hguard _ h.freeList nd ?_ (hnd.resolve_left hnot)
      rw [List.takeWhile_append_of_pos fun c hc ↦ decide_eq_true (hpre c hc)]
      refine List.mem_append_right _ ?_
      rw [List.takeWhile_cons, if_pos (decide_eq_true hnot)]
      exact List.mem_cons_self
    obtain ⟨w, htake, hfree, hallocated, htotal⟩ :=
      h.freeList.takeRegion h.freeSpans (h.node_bounded hmem).2 hk63 hk hsize hserves
    refine .inr ⟨pre, nd, post, w, rfl, hpre, hserves, ?_,
      h.alloc hserves hfree hallocated htotal⟩
    rw [step, heq, htake, Option.map_some]
    dsimp only
    rw [if_neg (h.ceilAlign_ne_zero hmem layout)]

/-- **Every call** whose request does not wrap returns and keeps the invariant. -/
theorem Inv.step_ok (h : s.Inv nodes) {call : HeapCall} (hlegal : s.Legal NoWrap call) :
    ∃ r s' nodes', s.step call = some (r, s') ∧ s'.Inv nodes' := by
  cases call with
  | init start size => exact ⟨0, _, _, rfl, h.init hlegal.1 hlegal.2.1 hlegal.2.2⟩
  | alloc layout =>
    rcases h.allocFirstFit hlegal with ⟨-, hstep⟩ | ⟨_, _, _, _, -, -, -, hstep, hinv⟩
    · exact ⟨0, s, nodes, hstep, h⟩
    · exact ⟨_, _, _, hstep, hinv⟩
  | dealloc ptr layout => exact ⟨0, _, _, rfl, h.dealloc hlegal⟩
  | store addr value =>
    obtain ⟨b, hb, -, haddr⟩ := hlegal
    exact ⟨0, _, _, rfl, h.store hb haddr⟩

theorem Legal.imp {guard guard' : HeapSys → Layout → Prop} {call : HeapCall}
    (h : s.Legal guard call) (himp : ∀ layout, guard s layout → guard' s layout) :
    s.Legal guard' call := by
  cases call with
  | alloc layout => exact himp layout h
  | init start size => exact h
  | dealloc ptr layout => exact h
  | store addr value => exact h

theorem inv_of_reachable {guard : HeapSys → Layout → Prop}
    (hguard : ∀ s nodes layout, s.Inv nodes → guard s layout → s.NoWrap layout)
    (h : (heapSystem guard).Reachable s) : ∃ nodes, s.Inv nodes := by
  refine h.invariant (P := fun s ↦ ∃ nodes, s.Inv nodes) (fun s hs ↦ ⟨[], inv_of_init hs⟩)
    fun s call s' _ ⟨nodes, hinv⟩ ⟨hlegal, hnext⟩ ↦ ?_
  obtain ⟨r, t, nodes', hstep, hinv'⟩ := hinv.step_ok (hlegal.imp fun l ↦ hguard s nodes l hinv)
  have hst : (s.step call).map Prod.snd = some t := by
    rw [hstep]
    rfl
  cases hst.symm.trans hnext
  exact ⟨nodes', hinv'⟩

/-! ## Far from the top of the address space -/

/-- The padding of an aligned block is less than the requested alignment. -/
theorem ceilAlign_adjustLayout_lt (layout : Layout) (h : minAlign ∣ nd.base) :
    ceilAlign nd.base (adjustLayout layout).2 < nd.base + layout.align := by
  have halign : (adjustLayout layout).2 = max layout.align minAlign := rfl
  have hpos : 0 < layout.align := by
    obtain ⟨k, hk⟩ := layout.align_pow
    exact hk ▸ Nat.two_pow_pos k
  rw [halign]
  rcases le_total layout.align minAlign with hle | hle
  · rw [max_eq_right hle, ceilAlign_of_dvd (by norm_num [minAlign]) h]
    omega
  · rw [max_eq_left hle]
    exact ceilAlign_lt hpos

theorem Inv.lt_wordSize (h : s.Inv nodes) (hfar : s.FarFromTop layout) (hnd : nd ∈ nodes) :
    nd.base + nd.len < wordSize ∧
      ceilAlign nd.base (adjustLayout layout).2 + (adjustLayout layout).1 < wordSize := by
  obtain ⟨r, hr, hlo, hhi⟩ := h.node_within nd hnd
  have hlt := hfar r hr
  have hceil := ceilAlign_adjustLayout_lt layout (h.node_aligned nd hnd)
  omega

theorem Inv.noWrap (h : s.Inv nodes) (hfar : s.FarFromTop layout) : s.NoWrap layout := by
  intro nodes' hfree nd hnd hwraps
  obtain rfl := h.freeList.unique hfree
  exact absurd hwraps.2 (not_le.mpr (h.lt_wordSize hfar (List.takeWhile_subset _ hnd)).2)

/-- The source's fit test, `align_up(s, align) + size <= s + n`, without wrapping. -/
def Room (layout : Layout) (nd : Span) : Prop :=
  alignUp nd.base (adjustLayout layout).2 + (adjustLayout layout).1 ≤ nd.base + nd.len

theorem Inv.serves_iff (h : s.Inv nodes) (hfar : s.FarFromTop layout) (hnd : nd ∈ nodes) :
    nd.Serves (adjustLayout layout).1 (adjustLayout layout).2 ↔ Room layout nd := by
  obtain ⟨k, -, hk63, hk, -⟩ := adjustLayout_align layout
  obtain ⟨hend, hlt⟩ := h.lt_wordSize hfar hnd
  rw [Room, hk, alignUp_two_pow _ hk63, ← hk, Nat.mod_eq_of_lt (by omega), Span.Serves, Span.Fits]
  exact and_iff_left (.inl hend)

/-! ## Safety -/

/-- The blocks of the heap: live blocks aligned, inside a region and disjoint; free blocks chained
through memory, aligned, inside a region, disjoint from each other and from the live ones; and the
counter right. -/
structure Safe (s : HeapSys) (nodes : List Span) : Prop where
  /-- The free list is finite, ends, and visits `nodes`. -/
  freeList : s.world.FreeList nodes
  live_aligned : ∀ b ∈ s.live, b.layout.align ∣ b.ptr
  live_within : ∀ b ∈ s.live, ∃ r ∈ s.regions, b.span.Within r
  live_disjoint : s.live.Pairwise fun a b ↦ Disjoint a.cells b.cells
  node_aligned : ∀ nd ∈ nodes, minAlign ∣ nd.base
  node_len : ∀ nd ∈ nodes, minBlock ≤ nd.len
  node_within : ∀ nd ∈ nodes, ∃ r ∈ s.regions, nd.Within r
  node_disjoint : nodes.Pairwise fun a b ↦ Disjoint a.cells b.cells
  node_live_disjoint : ∀ nd ∈ nodes, ∀ b ∈ s.live, Disjoint nd.cells b.cells
  allocated : s.world.heap.allocated = (s.live.map LiveBlock.size).sum

theorem Inv.safe (h : s.Inv nodes) : s.Safe nodes where
  freeList := h.freeList
  live_aligned b hb := by
    obtain ⟨k, -, -, -, hdvd⟩ := adjustLayout_align b.layout
    exact hdvd.trans (h.live_aligned b hb)
  live_within := h.live_within
  live_disjoint := h.live_pairwise
  node_aligned := h.node_aligned
  node_len := h.node_len
  node_within := h.node_within
  node_disjoint := h.node_pairwise
  node_live_disjoint _ hnd _ hb := h.node_disjoint_live hnd hb
  allocated := h.allocated

/-- What a call that returns `r` and leaves `s'` has done to `s`, whose free list is `nodes`. -/
def Returns (s : HeapSys) (nodes : List Span) : HeapCall → ℕ → HeapSys → Prop
  | .alloc layout, r, s' => (r = 0 ↔ ∀ nd ∈ nodes, ¬Room layout nd) ∧ (r = 0 → s' = s)
  -- `allocated -= size` does not underflow
  | .dealloc _ layout, _, _ => (adjustLayout layout).1 ≤ s.world.heap.allocated
  | .init _ _, _, _ => True
  | .store _ _, _, _ => True

theorem Inv.returns (h : s.Inv nodes) {call : HeapCall} (hlegal : s.Legal FarFromTop call) :
    ∃ r s', s.step call = some (r, s') ∧ s.Returns nodes call r s' := by
  cases call with
  | init start size => exact ⟨0, _, rfl, trivial⟩
  | alloc layout =>
    rcases h.allocFirstFit (h.noWrap hlegal) with
      ⟨hnone, hstep⟩ | ⟨pre, nd, post, w, rfl, -, hserves, hstep, -⟩
    · refine ⟨0, s, hstep, ⟨fun _ nd hnd ↦ ?_, fun _ ↦ rfl⟩, fun _ ↦ rfl⟩
      exact (h.serves_iff hlegal hnd).not.mp (hnone nd hnd)
    · have hnd : nd ∈ pre ++ nd :: post := List.mem_append_right _ List.mem_cons_self
      have hptr := h.ceilAlign_ne_zero hnd layout
      refine ⟨_, _, hstep, ⟨fun hnull ↦ absurd hnull hptr, fun hnone ↦ ?_⟩,
        fun hnull ↦ absurd hnull hptr⟩
      exact absurd ((h.serves_iff hlegal hnd).mp hserves) (hnone nd hnd)
  | dealloc ptr layout =>
    refine ⟨0, _, rfl, ?_⟩
    show (adjustLayout layout).1 ≤ s.world.heap.allocated
    rw [h.allocated_erase hlegal]
    exact Nat.le_add_right _ _
  | store addr value => exact ⟨0, _, rfl, trivial⟩

end HeapSys

/-- **Kernel heap safety.** In every run far from the top of the address space the blocks stay
apart, and every call returns: a request answers null exactly when no free block has room for it. -/
theorem heap_safety {s : HeapSys} (hs : (heapSystem HeapSys.FarFromTop).Reachable s) :
    ∃ nodes, s.Safe nodes ∧ ∀ call, s.Legal HeapSys.FarFromTop call →
      ∃ r s', s.step call = some (r, s') ∧ s.Returns nodes call r s' := by
  obtain ⟨nodes, hinv⟩ :=
    HeapSys.inv_of_reachable (fun _ _ _ hinv hfar ↦ hinv.noWrap hfar) hs
  exact ⟨nodes, hinv.safe, fun _ hlegal ↦ hinv.returns hlegal⟩

/-- A page of memory, and a block of 100 bytes aligned to 64 taken from it and given back. -/
theorem heap_safety_of_dealloc :
    ∃ nodes, HeapSys.Safe (((HeapSys.machine HeapSys.FarFromTop).run
      [.init 0x1008 0x1000, .alloc ⟨100, 64, ⟨6, rfl⟩, by decide⟩,
        .dealloc 0x1040 ⟨100, 64, ⟨6, rfl⟩, by decide⟩]
      HeapSys.boot).get (by decide +kernel)) nodes := by
  obtain ⟨nodes, hsafe, -⟩ :=
    heap_safety (Machine.reachable_run HeapSys.reachable_boot (Option.some_get _).symm)
  exact ⟨nodes, hsafe⟩

end Zeroxos
