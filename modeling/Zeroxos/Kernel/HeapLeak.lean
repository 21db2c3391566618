import Zeroxos.Kernel.HeapFragmentation

/-!
# Bytes the heap loses

A free block that serves a request is cut into padding, the block and a tail. Padding and a tail
that cannot hold a header are given back to nobody, and the block that is freed later is only as
long as the request. So a request loses the bytes of such slivers for good, wherever in a region
they are.

## The condition

The free and the live bytes together stay what the regions gave exactly as long as no request leaves
a sliver (`heap_conserves`). The account is kept request by request: `Span.lost` is what the block
that is taken loses, and `Inv.alloc_bytes` adds it up with what is free and live afterwards. The
usable bytes of a region are what is left of it after its ends were rounded, as `init` does.
-/

namespace Zeroxos

open HeapMem

/-- The bytes in front of the block that serves a request. -/
def Span.pad (align : ℕ) (nd : Span) : ℕ := ceilAlign nd.base align - nd.base

/-- The bytes behind it. -/
def Span.tail (size align : ℕ) (nd : Span) : ℕ :=
  nd.base + nd.len - (ceilAlign nd.base align + size)

/-- The bytes of a piece that are lost: all of them, when it cannot hold a header. -/
def sliver (n : ℕ) : ℕ := if n < minBlock then n else 0

/-- The bytes a request loses of the block that serves it. -/
def Span.lost (size align : ℕ) (nd : Span) : ℕ :=
  sliver (nd.pad align) + sliver (nd.tail size align)

namespace HeapSys

/-- The free and the live bytes. -/
def bytes (s : HeapSys) (nodes : List Span) : ℕ :=
  (nodes.map Span.len).sum + (s.live.map LiveBlock.size).sum

/-- The bytes the regions gave, each when it was given: all but those at its edges. -/
def usable (s : HeapSys) : ℕ :=
  (s.regions.map fun r ↦ ((freed r.base r.len).map Span.len).sum).sum

/-- **No byte was lost.** -/
def Conserved (s : HeapSys) : Prop := ∃ nodes, s.world.FreeList nodes ∧ s.bytes nodes = s.usable

instance (size align : ℕ) (nd : Span) : Decidable (Taken size align nd) :=
  inferInstanceAs (Decidable (_ ≤ _))

/-- The block a request is served from: the first one that passes the fit test. -/
def served (layout : Layout) (nodes : List Span) : Option Span :=
  nodes.find? fun nd ↦ Taken (adjustLayout layout).1 (adjustLayout layout).2 nd

/-- The block that serves the request does not wrap, and its padding and its tail are empty or can
hold a header. -/
def LeavesNoSliver (s : HeapSys) (layout : Layout) : Prop :=
  ∀ nodes, s.world.FreeList nodes → ∀ nd, served layout nodes = some nd →
    ¬nd.Wraps (adjustLayout layout).1 (adjustLayout layout).2 ∧
      (nd.pad (adjustLayout layout).2 = 0 ∨ minBlock ≤ nd.pad (adjustLayout layout).2) ∧
      (nd.tail (adjustLayout layout).1 (adjustLayout layout).2 = 0 ∨
        minBlock ≤ nd.tail (adjustLayout layout).1 (adjustLayout layout).2)

variable {s s' : HeapSys} {nodes : List Span} {layout : Layout} {nd c : Span} {call : HeapCall}

/-! ## What a request loses -/

theorem sliver_eq_zero {n : ℕ} : sliver n = 0 ↔ n = 0 ∨ minBlock ≤ n := by
  rw [sliver]
  split_ifs with h
  · exact ⟨.inl, fun hn ↦ hn.resolve_right (not_le.mpr h)⟩
  · exact iff_of_true rfl (.inr (not_lt.mp h))

theorem lost_eq_zero {size align : ℕ} :
    nd.lost size align = 0 ↔ (nd.pad align = 0 ∨ minBlock ≤ nd.pad align) ∧
      (nd.tail size align = 0 ∨ minBlock ≤ nd.tail size align) := by
  rw [Span.lost, Nat.add_eq_zero_iff, sliver_eq_zero, sliver_eq_zero]

theorem sum_freed {addr n : ℕ} (hdvd : minAlign ∣ addr) :
    ((freed addr n).map Span.len).sum + sliver n = n := by
  rw [sliver]
  split_ifs with h
  · rw [freed_eq_nil h, List.map_nil, List.sum_nil, Nat.zero_add]
  · rw [freed_of_dvd hdvd (not_lt.mp h), List.map_singleton, List.sum_singleton, Nat.add_zero]

/-- What is left of a block, what is taken and what is lost. -/
theorem sum_carve (hdvd : minAlign ∣ nd.base)
    (hfits : nd.Fits (adjustLayout layout).1 (adjustLayout layout).2) :
    ((carve (adjustLayout layout).1 (adjustLayout layout).2 nd).map Span.len).sum
      + (adjustLayout layout).1 + nd.lost (adjustLayout layout).1 (adjustLayout layout).2
      = nd.len := by
  obtain ⟨halign, hsize⟩ := minAlign_dvd_adjustLayout layout
  have hend : minAlign ∣ ceilAlign nd.base (adjustLayout layout).2 + (adjustLayout layout).1 :=
    Nat.dvd_add (halign.trans (dvd_ceilAlign _ _)) hsize
  have hpad := sum_freed (n := nd.pad (adjustLayout layout).2) hdvd
  have htail := sum_freed (n := nd.tail (adjustLayout layout).1 (adjustLayout layout).2) hend
  have hle := le_ceilAlign (a := nd.base) (adjustLayout_align_pos layout)
  unfold Span.Fits at hfits
  unfold Span.pad at hpad
  unfold Span.tail at htail
  rw [carve, List.map_append, List.sum_append, Span.lost, Span.tail, Span.pad]
  omega

theorem bytes_append (pre post : List Span) :
    s.bytes (pre ++ post) = (pre.map Span.len).sum + s.bytes post := by
  rw [bytes, bytes, List.map_append, List.sum_append, add_assoc]

theorem bytes_middle (pre post : List Span) :
    s.bytes (pre ++ nd :: post) = nd.len + s.bytes (pre ++ post) := by
  rw [bytes_append, bytes_append, ← List.singleton_append, bytes_append, List.map_singleton,
    List.sum_singleton]
  omega

theorem bytes_live {w : HeapMem} {ptr : ℕ} :
    bytes { s with world := w, live := ⟨ptr, layout⟩ ::ₘ s.live } nodes
      = (adjustLayout layout).1 + s.bytes nodes := by
  rw [bytes, bytes, Multiset.map_cons, Multiset.sum_cons, LiveBlock.size]
  dsimp only
  omega

/-! ## One request -/

theorem served_eq_some {pre post : List Span} :
    (∀ c ∈ pre, ¬Taken (adjustLayout layout).1 (adjustLayout layout).2 c) →
    Taken (adjustLayout layout).1 (adjustLayout layout).2 nd →
    served layout (pre ++ nd :: post) = some nd := by
  intro hpre hnd
  refine List.find?_eq_some_iff_append.mpr ⟨decide_eq_true hnd, pre, post, rfl, fun c hc ↦ ?_⟩
  rw [decide_eq_false (hpre c hc)]
  rfl

theorem mem_pre_of_mem_takeWhile {p : Span → Bool} {pre post : List Span} (hnd : p nd = false)
    (hc : c ∈ (pre ++ nd :: post).takeWhile p) : c ∈ pre := by
  rw [List.takeWhile_append] at hc
  split_ifs at hc
  · rwa [List.takeWhile_cons_of_neg (by rw [hnd]; nofun), List.append_nil] at hc
  · exact List.takeWhile_subset _ hc

/-- A request without slivers does not wrap. -/
theorem Inv.noWrap_of_leavesNoSliver (h : s.Inv nodes) (hs : s.LeavesNoSliver layout) :
    s.NoWrap layout := by
  intro nodes' hfree nd hnd hwraps
  obtain rfl := h.freeList.unique hfree
  have hmem := List.takeWhile_subset _ hnd
  have htaken := (h.taken_iff hmem).mpr (.inr hwraps)
  -- the first block that is taken serves the request, and the walk ends there
  obtain ⟨d, hd⟩ : ∃ d, served layout nodes = some d :=
    Option.isSome_iff_exists.mp (List.find?_isSome.mpr ⟨nd, hmem, decide_eq_true htaken⟩)
  obtain ⟨hdtaken, pre, post, rfl, hpre⟩ := List.find?_eq_some_iff_append.mp hd
  have hserves : d.Serves (adjustLayout layout).1 (adjustLayout layout).2 :=
    ((h.taken_iff (List.mem_append_right _ List.mem_cons_self)).mp
      (of_decide_eq_true hdtaken)).resolve_right (hs _ hfree d hd).1
  have hnotin := hpre nd (mem_pre_of_mem_takeWhile (decide_eq_false (not_not_intro hserves)) hnd)
  rw [decide_eq_true htaken] at hnotin
  cases hnotin

theorem Inv.not_taken (h : s.Inv nodes) (hguard : s.NoWrap layout) {pre post : List Span}
    (hnodes : nodes = pre ++ post)
    (hpre : ∀ c ∈ pre, ¬c.Serves (adjustLayout layout).1 (adjustLayout layout).2) :
    ∀ c ∈ pre, ¬Taken (adjustLayout layout).1 (adjustLayout layout).2 c := by
  intro c hc htaken
  subst hnodes
  rcases (h.taken_iff (List.mem_append_left _ hc)).mp htaken with hserves | hwraps
  · exact hpre c hc hserves
  · refine hguard _ h.freeList c ?_ hwraps
    rw [List.takeWhile_append_of_pos fun c hc ↦ decide_eq_true (hpre c hc)]
    exact List.mem_append_left _ hc

/-- **What a request loses**: nothing exactly when it leaves no sliver. -/
theorem Inv.alloc_bytes (h : s.Inv nodes) (hguard : s.NoWrap layout) {r : ℕ}
    (hstep : s.step (.alloc layout) = some (r, s')) :
    ∃ nodes' n, s'.Inv nodes' ∧ s'.regions = s.regions ∧ s'.bytes nodes' + n = s.bytes nodes ∧
      (n = 0 ↔ s.LeavesNoSliver layout) := by
  rcases h.allocFirstFit hguard with
    ⟨hnone, heq⟩ | ⟨pre, nd, post, w, rfl, hpre, hserves, heq, hinv⟩
  · cases heq.symm.trans hstep
    refine ⟨nodes, 0, h, rfl, rfl, iff_of_true rfl fun nodes' hfree nd hnd ↦ ?_⟩
    obtain rfl := h.freeList.unique hfree
    have hnot := h.not_taken hguard (List.append_nil _).symm hnone
    have htaken := List.find?_some hnd
    exact absurd (of_decide_eq_true htaken) (hnot nd (List.mem_of_find?_eq_some hnd))
  · cases heq.symm.trans hstep
    have hmem : nd ∈ pre ++ nd :: post := List.mem_append_right _ List.mem_cons_self
    have hfirst : served layout (pre ++ nd :: post) = some nd :=
      served_eq_some (h.not_taken hguard rfl hpre) ((h.taken_iff hmem).mpr (.inl hserves))
    have hnowrap : ¬nd.Wraps (adjustLayout layout).1 (adjustLayout layout).2 := by
      rintro ⟨hend, htop⟩
      have hfits := hserves.1
      unfold Span.Fits at hfits
      omega
    refine ⟨_, nd.lost (adjustLayout layout).1 (adjustLayout layout).2, hinv, rfl, ?_, ?_⟩
    · have hsum := sum_carve (h.node_aligned nd hmem) hserves.1
      rw [bytes_live, bytes_append, bytes_middle]
      omega
    · rw [lost_eq_zero]
      refine ⟨fun hlost nodes' hfree d hd ↦ ?_, fun hs ↦ (hs _ h.freeList nd hfirst).2⟩
      obtain rfl := h.freeList.unique hfree
      obtain rfl := Option.some.inj (hfirst.symm.trans hd)
      exact ⟨hnowrap, hlost⟩

/-! ## Every call -/

theorem bytes_init {start size : ℕ} {w : HeapMem} (nodes : List Span) :
    bytes { s with world := w, regions := ⟨start, size⟩ :: s.regions } (freed start size ++ nodes)
        + s.usable
      = s.bytes nodes
        + usable { s with world := w, regions := ⟨start, size⟩ :: s.regions } := by
  rw [bytes_append, usable, usable, List.map_cons, List.sum_cons]
  show _ + s.bytes nodes + _ = _
  dsimp only
  omega

theorem Inv.dealloc_bytes (h : s.Inv nodes) {ptr : ℕ} (hb : (⟨ptr, layout⟩ : LiveBlock) ∈ s.live)
    {w : HeapMem} :
    bytes { s with world := w, live := s.live.erase ⟨ptr, layout⟩ }
      (freed ptr (adjustLayout layout).1 ++ nodes) = s.bytes nodes := by
  have hptr : (adjustLayout layout).2 ∣ ptr := h.live_aligned ⟨ptr, layout⟩ hb
  have hdvd := (minAlign_dvd_adjustLayout layout).1.trans hptr
  have hlive : (s.live.map LiveBlock.size).sum
      = (adjustLayout layout).1 + ((s.live.erase ⟨ptr, layout⟩).map LiveBlock.size).sum := by
    conv_lhs => rw [← Multiset.cons_erase hb, Multiset.map_cons, Multiset.sum_cons]
    rfl
  rw [freed_of_dvd hdvd (minBlock_le_adjustLayout layout), bytes_append, List.map_singleton,
    List.sum_singleton, bytes, bytes, hlive]
  dsimp only
  omega

/-- **One call** loses so many bytes, and none exactly when it leaves no sliver. -/
theorem Inv.step_bytes (h : s.Inv nodes) (hlegal : s.Legal NoWrap call) {r : ℕ}
    (hstep : s.step call = some (r, s')) :
    ∃ nodes' n, s'.Inv nodes' ∧ s'.bytes nodes' + n + s.usable = s.bytes nodes + s'.usable ∧
      (n = 0 ↔ s.Legal LeavesNoSliver call) := by
  cases call with
  | init start size =>
    cases hstep
    refine ⟨_, 0, h.init hlegal.1 hlegal.2.1 hlegal.2.2, ?_, iff_of_true rfl hlegal⟩
    rw [Nat.add_zero]
    exact bytes_init nodes
  | alloc layout =>
    obtain ⟨nodes', n, hinv, hregions, hbytes, hiff⟩ := h.alloc_bytes hlegal hstep
    exact ⟨nodes', n, hinv, by rw [hbytes, usable, usable, hregions], hiff⟩
  | dealloc ptr layout =>
    cases hstep
    refine ⟨_, 0, h.dealloc hlegal, ?_, iff_of_true rfl hlegal⟩
    rw [h.dealloc_bytes hlegal, Nat.add_zero, usable, usable]
  | store addr value =>
    cases hstep
    have hmem := hlegal
    obtain ⟨b, hb, -, haddr⟩ := hlegal
    refine ⟨nodes, 0, h.store hb haddr, ?_, iff_of_true rfl hmem⟩
    rw [Nat.add_zero, bytes, bytes, usable, usable]

/-- Bytes are counted on the free list, whatever list it is said to be. -/
theorem Inv.conserved_iff (h : s.Inv nodes) : s.Conserved ↔ s.bytes nodes = s.usable := by
  refine ⟨fun ⟨nodes', hfree, hbytes⟩ ↦ ?_, fun hbytes ↦ ⟨nodes, h.freeList, hbytes⟩⟩
  obtain rfl := h.freeList.unique hfree
  exact hbytes

theorem conserved_of_reachable (hs : (heapSystem LeavesNoSliver).Reachable s) :
    ∃ nodes, s.Inv nodes ∧ s.bytes nodes = s.usable := by
  refine hs.invariant (P := fun s ↦ ∃ nodes, s.Inv nodes ∧ s.bytes nodes = s.usable)
    (fun s hinit ↦ ⟨[], inv_of_init hinit, ?_⟩) fun s call s' _ ⟨nodes, h, hbytes⟩ hstep ↦ ?_
  · rw [bytes, usable, hinit.2.1, hinit.2.2]
    rfl
  · obtain ⟨hlegal, r, hstep⟩ := exists_step_of_next hstep
    obtain ⟨nodes', n, h', hsum, hiff⟩ :=
      h.step_bytes (hlegal.imp fun layout ↦ h.noWrap_of_leavesNoSliver) hstep
    rw [hiff.mpr hlegal] at hsum
    exact ⟨nodes', h', by omega⟩

end HeapSys

open HeapSys in
/-- **No byte is lost** in a run whose requests leave no sliver: the free and the live bytes are
those the regions gave. A request that does leave one, and does not wrap, loses it. -/
theorem heap_conserves {s : HeapSys} (hs : (heapSystem LeavesNoSliver).Reachable s) :
    s.Conserved ∧ ∀ call r s', s.Legal NoWrap call → s.step call = some (r, s') →
      (s'.Conserved ↔ s.Legal LeavesNoSliver call) := by
  obtain ⟨nodes, h, hbytes⟩ := conserved_of_reachable hs
  refine ⟨h.conserved_iff.mpr hbytes, fun call r s' hlegal hstep ↦ ?_⟩
  obtain ⟨nodes', n, h', hsum, hiff⟩ := h.step_bytes hlegal hstep
  rw [h'.conserved_iff, ← hiff]
  omega

/-! ## A page of memory -/

theorem freed_page : freed 0x1000 0x1000 = [⟨0x1000, 0x1000⟩] := by decide

theorem inv_pageHeap : pageHeap.Inv [⟨0x1000, 0x1000⟩] := by
  rw [← freed_page]
  exact HeapSys.inv_fresh (by decide) (by decide)

theorem reachable_pageHeap {guard : HeapSys → Layout → Prop} :
    (heapSystem guard).Reachable pageHeap :=
  .step (e := .init 0x1000 0x1000) HeapSys.reachable_boot ⟨⟨by decide, by decide, nofun⟩, rfl⟩

theorem next_pageHeap {guard : HeapSys → Layout → Prop} {layout : Layout}
    (h : (pageHeap.step (.alloc layout)).isSome) :
    (HeapSys.machine guard).next pageHeap (.alloc layout) = some (pageTaken layout) := by
  show (pageHeap.step (.alloc layout)).map Prod.snd = some (pageTaken layout)
  obtain ⟨⟨ptr, s⟩, hstep⟩ := Option.isSome_iff_exists.mp h
  rw [pageTaken, hstep]
  rfl

/-- 64 bytes taken from the page. -/
theorem heap_conserves_small : (pageTaken smallLayout).Conserved := by
  have hsliver : pageHeap.LeavesNoSliver smallLayout := by
    intro nodes hfree nd hnd
    obtain rfl := inv_pageHeap.freeList.unique hfree
    have hserved : HeapSys.served smallLayout [⟨0x1000, 0x1000⟩] = some ⟨0x1000, 0x1000⟩ := by
      decide +kernel
    obtain rfl := Option.some.inj (hserved.symm.trans hnd)
    decide +kernel
  have hreach : (heapSystem HeapSys.LeavesNoSliver).Reachable (pageTaken smallLayout) :=
    .step (e := .alloc smallLayout) reachable_pageHeap
      ⟨hsliver, next_pageHeap (by decide +kernel)⟩
  exact (heap_conserves hreach).1

/-- A request that is 8 bytes short of the page. -/
def shortLayout : Layout := ⟨0xff8, 8, HeapSys.minAlign_pow, by decide⟩

/-- The last 8 bytes of the page are lost. -/
theorem page_loses_tail : ∃ s, (heapSystem HeapSys.NoWrap).Reachable s ∧ ¬s.Conserved := by
  have hwrap : pageHeap.Legal HeapSys.NoWrap (.alloc shortLayout) :=
    inv_pageHeap.noWrap (by decide +kernel)
  have hsome : (pageHeap.step (.alloc shortLayout)).isSome := by decide +kernel
  refine ⟨pageTaken shortLayout,
    .step (e := .alloc shortLayout) reachable_pageHeap ⟨hwrap, next_pageHeap hsome⟩, ?_⟩
  obtain ⟨⟨r, s⟩, hstep⟩ := Option.isSome_iff_exists.mp hsome
  have hs : s = pageTaken shortLayout := by rw [pageTaken, hstep]; rfl
  obtain ⟨nodes, n, hinv, hbytes, hiff⟩ := inv_pageHeap.step_bytes hwrap hstep
  rw [← hs]
  intro hconserved
  have hpage : pageHeap.bytes [⟨0x1000, 0x1000⟩] = pageHeap.usable := by decide +kernel
  rw [hinv.conserved_iff.mp hconserved] at hbytes
  have hsliver : pageHeap.LeavesNoSliver shortLayout := hiff.mp (by omega)
  obtain ⟨-, -, htail⟩ := hsliver _ inv_pageHeap.freeList ⟨0x1000, 0x1000⟩ (by decide +kernel)
  revert htail
  decide +kernel

end Zeroxos
