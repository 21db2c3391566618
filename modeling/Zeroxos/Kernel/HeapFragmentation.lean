import Zeroxos.Kernel.HeapSafety

/-!
# Fragmentation

Freeing a block puts it in front of the free list and merges it with nothing, so a free block that
was once cut stays cut. What that costs is decided by the first cut: as long as every request takes
a free block whole, the region is one block, free or live, and comes back as it was; after a request
that leaves a piece, every block is smaller than the region for good, and the largest request the
region could once serve is refused.

## Two situations

`Whole` and `Cut` are these two, each kept by every call of a client, and `Whole.cut` leads from one
to the other. A block is whole up to the bytes behind its last full header alignment, which no
request can use: `SameRoom` is all that the fit test sees of the end of a block.

## Both directions

Enough is shown of all runs, also of those with requests that wrap. That the condition is necessary
needs a region that ends a region's length below the top of the address space, and a run whose
requests do not wrap: a request that wraps may take what is left of a region for more than it is.
-/

namespace Zeroxos

open HeapMem

/-- The calls of a client: all but `init`. -/
def HeapCall.IsClient : HeapCall → Prop
  | .init _ _ => False
  | _ => True

namespace HeapSys

/-- A heap initialised with one region, over memory that holds anything. -/
def fresh (m : Memory) (start size : ℕ) : HeapSys :=
  ⟨HeapMem.init start size ⟨Heap.empty, m⟩, [⟨start, size⟩], 0⟩

/-- The request is answered with a block. -/
def Satisfies (s : HeapSys) (layout : Layout) : Prop :=
  ∃ ptr ≠ 0, (s.step (.alloc layout)).map Prod.fst = some ptr

/-- A request takes a free block from its first byte to fewer than `MIN_ALIGN` bytes before its end:
this is so of the first block in the list that passes the fit test. -/
def TakesWhole (s : HeapSys) : HeapCall → Prop
  | .alloc layout => ∀ pre nd post, s.world.FreeList (pre ++ nd :: post) →
      (∀ c ∈ pre, ¬Taken (adjustLayout layout).1 (adjustLayout layout).2 c) →
      Taken (adjustLayout layout).1 (adjustLayout layout).2 nd →
      (adjustLayout layout).2 ∣ nd.base ∧ (adjustLayout layout).1 ≤ nd.len
        ∧ nd.len < (adjustLayout layout).1 + minAlign
  | _ => True

variable {s s' : HeapSys} {nodes : List Span} {layout : Layout} {nd c : Span} {b : LiveBlock}
  {m : Memory} {start size : ℕ}

theorem inv_fresh (hpos : 0 < start) (hend : start + size ≤ wordSize) :
    (fresh m start size).Inv (freed start size) := by
  have h := (inv_of_init (s := ⟨⟨Heap.empty, m⟩, [], 0⟩) ⟨rfl, rfl, rfl⟩).init hpos hend
    fun _ h ↦ absurd h List.not_mem_nil
  rwa [List.append_nil] at h

/-! ## Which requests are satisfied -/

theorem minAlign_dvd_adjustLayout (layout : Layout) :
    minAlign ∣ (adjustLayout layout).2 ∧ minAlign ∣ (adjustLayout layout).1 := by
  obtain ⟨k, hk3, -, hk, -⟩ := adjustLayout_align layout
  have hdvd : minAlign ∣ (adjustLayout layout).2 := hk ▸ pow_dvd_pow 2 hk3
  refine ⟨hdvd, ?_⟩
  rw [(adjustLayout_size layout).1]
  exact hdvd.trans (dvd_ceilAlign _ _)

theorem Inv.taken_iff (h : s.Inv nodes) (hnd : nd ∈ nodes) :
    Taken (adjustLayout layout).1 (adjustLayout layout).2 nd ↔
      nd.Serves (adjustLayout layout).1 (adjustLayout layout).2 ∨
        nd.Wraps (adjustLayout layout).1 (adjustLayout layout).2 := by
  obtain ⟨k, -, hk63, hk, -⟩ := adjustLayout_align layout
  have hsize : 0 < (adjustLayout layout).1 :=
    (by norm_num [minBlock] : 0 < minBlock).trans_le (minBlock_le_adjustLayout layout)
  have hlen := h.node_len nd hnd
  rw [minBlock] at hlen
  rw [hk]
  exact fit_iff (h.node_bounded hnd).2 (by omega) hk63 hsize (adjustLayout_size layout).2

theorem step_alloc_fst (s : HeapSys) (layout : Layout) :
    (s.step (.alloc layout)).map Prod.fst = (s.world.allocFirstFit layout).map Prod.fst := by
  rw [step, Option.map_map]
  rfl

theorem Inv.exists_of_satisfies (h : s.Inv nodes) (hs : s.Satisfies layout) :
    ∃ nd ∈ nodes, Taken (adjustLayout layout).1 (adjustLayout layout).2 nd
      ∧ alignUp nd.base (adjustLayout layout).2 ≠ 0 := by
  obtain ⟨ptr, hptr, hstep⟩ := hs
  rw [step_alloc_fst] at hstep
  rcases h.freeList.allocFirstFit layout h.freeSpans fun nd hnd ↦ (h.node_bounded hnd).2 with
    ⟨-, heq⟩ | ⟨pre, nd, post, rfl, -, hnd, heq⟩
  · rw [heq, Option.map_some, Option.some_inj] at hstep
    exact absurd hstep.symm hptr
  · have hmem : nd ∈ pre ++ nd :: post := List.mem_append_right _ List.mem_cons_self
    rw [heq, takeRegion_eq, Option.map_some, Option.some_inj] at hstep
    refine ⟨nd, hmem, (h.taken_iff hmem).mpr hnd, ?_⟩
    exact ne_of_eq_of_ne hstep hptr

theorem Inv.satisfies_of_taken (h : s.Inv [nd])
    (htaken : Taken (adjustLayout layout).1 (adjustLayout layout).2 nd)
    (hptr : alignUp nd.base (adjustLayout layout).2 ≠ 0) : s.Satisfies layout := by
  have hmem : nd ∈ [nd] := List.mem_singleton_self nd
  refine ⟨_, hptr, ?_⟩
  rw [step_alloc_fst]
  rcases h.freeList.allocFirstFit layout h.freeSpans fun nd hnd ↦ (h.node_bounded hnd).2 with
    ⟨hnone, -⟩ | ⟨pre, c, post, hnodes, -, -, heq⟩
  · exact absurd ((h.taken_iff hmem).mp htaken) (hnone nd hmem)
  · have hc : c ∈ [nd] := hnodes ▸ List.mem_append_right _ List.mem_cons_self
    rw [List.mem_singleton.mp hc] at heq
    rw [heq, takeRegion_eq, Option.map_some]

/-! ## One block -/

/-- The same address, and the same room for aligned requests. -/
def SameRoom (nd c : Span) : Prop := nd.base = c.base ∧ nd.len / minAlign = c.len / minAlign

/-- Everything the region holds is one block, free or live. -/
def Whole (start size : ℕ) (s : HeapSys) (nodes : List Span) : Prop :=
  (s.live = 0 ∧ List.Forall₂ SameRoom nodes (freed start size))
    ∨ (nodes = [] ∧ ∃ b c, s.live = {b} ∧ freed start size = [c] ∧ SameRoom b.span c)

/-- Every block is smaller than the region. -/
def Cut (start size : ℕ) (s : HeapSys) (nodes : List Span) : Prop :=
  ∃ f, freed start size = [f] ∧ (∀ nd ∈ nodes, nd.len / minAlign < f.len / minAlign)
    ∧ ∀ b ∈ s.live, b.size / minAlign < f.len / minAlign

theorem freed_cases (start size : ℕ) : freed start size = [] ∨ ∃ nd, freed start size = [nd] := by
  rw [freed]
  split_ifs
  · exact .inr ⟨_, rfl⟩
  · exact .inl rfl

theorem whole_fresh : (fresh m start size).Whole start size (freed start size) :=
  .inl ⟨rfl, List.forall₂_same.mpr fun _ _ ↦ ⟨rfl, rfl⟩⟩

private theorem eq_nil_of_singleton {pre post : List Span} (h : [nd] = pre ++ nd :: post) :
    pre = [] ∧ post = [] := by
  have hlen := congrArg List.length h
  simp only [List.length_append, List.length_cons, List.length_nil] at hlen
  exact ⟨List.eq_nil_of_length_eq_zero (by omega), List.eq_nil_of_length_eq_zero (by omega)⟩

theorem Whole.eq_singleton (h : s.Whole start size nodes) (hnd : nd ∈ nodes) :
    nodes = [nd] ∧ s.live = 0 ∧ ∃ c, freed start size = [c] ∧ SameRoom nd c := by
  rcases h with ⟨hlive, hroom⟩ | ⟨rfl, -⟩
  · rcases freed_cases start size with hf | ⟨c, hf⟩
    · rw [hf, List.forall₂_nil_right_iff] at hroom
      rw [hroom] at hnd
      exact absurd hnd List.not_mem_nil
    · rw [hf, List.forall₂_cons_right_iff] at hroom
      obtain ⟨d, rest, hd, hrest, rfl⟩ := hroom
      rw [List.forall₂_nil_right_iff.mp hrest] at hnd ⊢
      obtain rfl := List.mem_singleton.mp hnd
      exact ⟨rfl, hlive, c, hf, hd⟩
  · exact absurd hnd List.not_mem_nil

theorem Whole.eq_singleton_live (h : s.Whole start size nodes) (hb : b ∈ s.live) :
    nodes = [] ∧ s.live = {b} ∧ ∃ c, freed start size = [c] ∧ SameRoom b.span c := by
  rcases h with ⟨hlive, -⟩ | ⟨hnodes, d, c, hlive, hfreed, hroom⟩
  · rw [hlive] at hb
    exact absurd hb (Multiset.notMem_zero b)
  · rw [hlive, Multiset.mem_singleton] at hb
    subst hb
    exact ⟨hnodes, hlive, c, hfreed, hroom⟩

/-- Room is all that the fit test sees of the end of a block. -/
theorem SameRoom.taken (hroom : SameRoom nd c)
    (h : Taken (adjustLayout layout).1 (adjustLayout layout).2 nd) (hnd : minAlign ∣ nd.base) :
    Taken (adjustLayout layout).1 (adjustLayout layout).2 c := by
  obtain ⟨hbase, hlen⟩ := hroom
  obtain ⟨k, hk3, hk63, hk, -⟩ := adjustLayout_align layout
  -- the end of the request is a multiple of the header alignment, as a word too
  have hdvd : minAlign ∣
      wadd (alignUp nd.base (adjustLayout layout).2) (adjustLayout layout).1 := by
    obtain ⟨halign, hsize⟩ := minAlign_dvd_adjustLayout layout
    have hword : minAlign ∣ wordSize := by norm_num [minAlign, wordSize]
    rw [hk] at halign ⊢
    rw [alignUp_two_pow _ hk63, wadd]
    refine (Nat.dvd_mod_iff hword).mpr (Nat.dvd_add ((Nat.dvd_mod_iff hword).mpr ?_) hsize)
    exact halign.trans (dvd_ceilAlign _ _)
  unfold Taken at h ⊢
  rw [← hbase]
  generalize wadd (alignUp nd.base (adjustLayout layout).2) (adjustLayout layout).1 = e at h hdvd ⊢
  simp only [wadd, minAlign, wordSize] at h hdvd hnd hlen ⊢
  omega

theorem len_le_of_mem_freed {addr n : ℕ} (h : nd ∈ freed addr n) : nd.len ≤ n := by
  obtain ⟨hlo, hhi⟩ := (of_mem_freed h).1
  dsimp only at hlo hhi
  omega

theorem freed_of_dvd {addr n : ℕ} (hdvd : minAlign ∣ addr) (hn : minBlock ≤ n) :
    freed addr n = [⟨addr, n⟩] := by
  rw [freed, ceilAlign_of_dvd (by norm_num [minAlign]) hdvd, if_pos (by omega),
    Nat.add_sub_cancel_left]

theorem size_le_of_serves (h : nd.Serves (adjustLayout layout).1 (adjustLayout layout).2) :
    (adjustLayout layout).1 ≤ nd.len := by
  have hle := le_ceilAlign (a := nd.base) (adjustLayout_align_pos layout)
  have hfits := h.1
  unfold Span.Fits at hfits
  omega

/-- A request that needs padding needs a header's alignment of it. -/
theorem add_minAlign_le_of_serves
    (h : nd.Serves (adjustLayout layout).1 (adjustLayout layout).2) (hnd : minAlign ∣ nd.base)
    (hdvd : ¬(adjustLayout layout).2 ∣ nd.base) : (adjustLayout layout).1 + minAlign ≤ nd.len := by
  have hle := le_ceilAlign (a := nd.base) (adjustLayout_align_pos layout)
  have hceil := dvd_ceilAlign nd.base (adjustLayout layout).2
  have hne : ceilAlign nd.base (adjustLayout layout).2 ≠ nd.base := fun heq ↦ hdvd (heq ▸ hceil)
  have haligned := (minAlign_dvd_adjustLayout layout).1.trans hceil
  have hfits := h.1
  unfold Span.Fits at hfits
  rw [minAlign] at *
  omega

theorem len_le_of_mem_carve (hserves : nd.Serves (adjustLayout layout).1 (adjustLayout layout).2)
    (hc : c ∈ carve (adjustLayout layout).1 (adjustLayout layout).2 nd) :
    c.len + (adjustLayout layout).1 ≤ nd.len := by
  have hle := le_ceilAlign (a := nd.base) (adjustLayout_align_pos layout)
  have hfits := hserves.1
  unfold Span.Fits at hfits
  rcases List.mem_append.mp hc with hc | hc
  · have := len_le_of_mem_freed hc
    omega
  · have := len_le_of_mem_freed hc
    omega

theorem carve_eq_nil (hdvd : (adjustLayout layout).2 ∣ nd.base)
    (hlt : nd.len < (adjustLayout layout).1 + minAlign) :
    carve (adjustLayout layout).1 (adjustLayout layout).2 nd = [] := by
  rw [minAlign] at hlt
  rw [carve, ceilAlign_of_dvd (adjustLayout_align_pos layout) hdvd,
    freed_eq_nil (by rw [minBlock]; omega), freed_eq_nil (by rw [minBlock]; omega)]
  rfl

theorem Whole.noWrap (hw : s.Whole start size nodes) (h : s.Inv nodes)
    (hwhole : s.TakesWhole (.alloc layout)) : s.NoWrap layout := by
  intro nodes' hfree nd hnd hwraps
  obtain rfl := h.freeList.unique hfree
  have hmem := List.takeWhile_subset _ hnd
  obtain ⟨rfl, -⟩ := hw.eq_singleton hmem
  obtain ⟨hdvd, hle, -⟩ := hwhole [] nd [] h.freeList (fun _ h ↦ absurd h List.not_mem_nil)
    ((h.taken_iff hmem).mpr (.inr hwraps))
  -- it has room, so the end is in the block
  unfold Span.Wraps at hwraps
  rw [ceilAlign_of_dvd (adjustLayout_align_pos layout) hdvd] at hwraps
  omega

/-- **As long as requests take blocks whole**, the region is one block. -/
theorem Whole.step (hw : s.Whole start size nodes) (h : s.Inv nodes) {call : HeapCall} {r : ℕ}
    (hclient : call.IsClient) (hlegal : s.Legal (fun _ _ ↦ True) call)
    (hwhole : s.TakesWhole call) (hstep : s.step call = some (r, s')) :
    ∃ nodes', s'.Inv nodes' ∧ s'.Whole start size nodes' := by
  cases call with
  | init start size => exact hclient.elim
  | alloc layout =>
    rcases h.allocFirstFit (hw.noWrap h hwhole) with
      ⟨-, heq⟩ | ⟨pre, nd, post, w, hnodes, -, hserves, heq, hinv⟩
    · cases heq.symm.trans hstep
      exact ⟨nodes, h, hw⟩
    · cases heq.symm.trans hstep
      refine ⟨_, hinv, .inr ?_⟩
      have hmem : nd ∈ nodes := hnodes ▸ List.mem_append_right _ List.mem_cons_self
      obtain ⟨hsingle, hlive, c, hfreed, hroom⟩ := hw.eq_singleton hmem
      obtain ⟨rfl, rfl⟩ := eq_nil_of_singleton (hsingle ▸ hnodes)
      obtain ⟨hdvd, hle, hlt⟩ := hwhole [] nd [] (hnodes ▸ h.freeList)
        (fun _ h ↦ absurd h List.not_mem_nil) ((h.taken_iff hmem).mpr (.inl hserves))
      obtain ⟨-, hsize⟩ := minAlign_dvd_adjustLayout layout
      have hceil := ceilAlign_of_dvd (adjustLayout_align_pos layout) hdvd
      refine ⟨by rw [carve_eq_nil hdvd hlt]; rfl,
        ⟨ceilAlign nd.base (adjustLayout layout).2, layout⟩, c, ?_, hfreed, ?_⟩
      · show _ ::ₘ s.live = _
        rw [hlive]
        rfl
      · refine ⟨hceil.trans hroom.1, ?_⟩
        show (adjustLayout layout).1 / minAlign = c.len / minAlign
        rw [← hroom.2]
        rw [minAlign] at hlt hsize ⊢
        omega
  | dealloc ptr layout =>
    cases hstep
    obtain ⟨rfl, hlive, c, hfreed, hroom⟩ := hw.eq_singleton_live hlegal
    refine ⟨_, h.dealloc hlegal, .inl ⟨?_, ?_⟩⟩
    · rw [hlive]
      exact Multiset.erase_singleton _
    · have hptr := h.live_aligned _ hlegal
      rw [freed_of_dvd ((minAlign_dvd_adjustLayout layout).1.trans hptr)
        (minBlock_le_adjustLayout layout), hfreed, List.append_nil]
      exact List.forall₂_cons.mpr ⟨hroom, .nil⟩
  | store addr value =>
    cases hstep
    obtain ⟨b, hb, -, haddr⟩ := hlegal
    exact ⟨nodes, h.store hb haddr, hw⟩

/-- **Once a block is cut**, every block stays smaller than the region. -/
theorem Cut.step (hc : s.Cut start size nodes) (h : s.Inv nodes) {call : HeapCall} {r : ℕ}
    (hclient : call.IsClient) (hlegal : s.Legal NoWrap call) (hstep : s.step call = some (r, s')) :
    ∃ nodes', s'.Inv nodes' ∧ s'.Cut start size nodes' := by
  cases call with
  | init start size => exact hclient.elim
  | alloc layout =>
    rcases h.allocFirstFit hlegal with ⟨-, heq⟩ | ⟨pre, nd, post, w, rfl, -, hserves, heq, hinv⟩
    · cases heq.symm.trans hstep
      exact ⟨nodes, h, hc⟩
    · cases heq.symm.trans hstep
      obtain ⟨f, hf, hnodes, hlive⟩ := hc
      have hnd := hnodes nd (List.mem_append_right _ List.mem_cons_self)
      refine ⟨_, hinv, f, hf, fun d hd ↦ ?_, fun b hb ↦ ?_⟩
      · rcases List.mem_append.mp hd with hd | hd
        · have hlen := len_le_of_mem_carve hserves hd
          exact (Nat.div_le_div_right (by omega)).trans_lt hnd
        · refine hnodes d ?_
          rcases List.mem_append.mp hd with hd | hd
          · exact List.mem_append_left _ hd
          · exact List.mem_append_right _ (List.mem_cons_of_mem nd hd)
      · rcases Multiset.mem_cons.mp hb with rfl | hb
        · exact (Nat.div_le_div_right (size_le_of_serves hserves)).trans_lt hnd
        · exact hlive b hb
  | dealloc ptr layout =>
    cases hstep
    obtain ⟨f, hf, hnodes, hlive⟩ := hc
    refine ⟨_, h.dealloc hlegal, f, hf, fun d hd ↦ ?_,
      fun b hb ↦ hlive b (Multiset.mem_of_mem_erase hb)⟩
    rcases List.mem_append.mp hd with hd | hd
    · exact (Nat.div_le_div_right (len_le_of_mem_freed hd)).trans_lt (hlive ⟨ptr, layout⟩ hlegal)
    · exact hnodes d hd
  | store addr value =>
    cases hstep
    obtain ⟨b, hb, -, haddr⟩ := hlegal
    exact ⟨nodes, h.store hb haddr, hc⟩

/-- **The first cut.** A request that does not take the only block whole cuts it. -/
theorem Whole.cut (hw : s.Whole start size nodes) (h : s.Inv nodes) {call : HeapCall} {r : ℕ}
    (hlegal : s.Legal NoWrap call) (hwhole : ¬s.TakesWhole call)
    (hstep : s.step call = some (r, s')) : ∃ nodes', s'.Inv nodes' ∧ s'.Cut start size nodes' := by
  cases call with
  | init start size => exact absurd trivial hwhole
  | dealloc ptr layout => exact absurd trivial hwhole
  | store addr value => exact absurd trivial hwhole
  | alloc layout =>
    unfold TakesWhole at hwhole
    push Not at hwhole
    obtain ⟨pre, nd, post, hfree, -, htaken, hpiece⟩ := hwhole
    obtain rfl := h.freeList.unique hfree
    obtain ⟨hsingle, hlive, c, hfreed, -, hroom⟩ :=
      hw.eq_singleton (List.mem_append_right pre List.mem_cons_self)
    rw [hsingle] at h
    have hmem := List.mem_singleton_self nd
    rcases h.allocFirstFit hlegal with ⟨hnone, -⟩ | ⟨pre', d, post', w, hd, -, hserves, heq, hinv⟩
    · -- it would wrap
      refine absurd ((h.taken_iff hmem).mp htaken) (not_or.mpr ⟨hnone nd hmem, ?_⟩)
      refine hlegal [nd] h.freeList nd ?_
      rw [List.takeWhile_cons, if_pos (decide_eq_true (hnone nd hmem))]
      exact List.mem_cons_self
    obtain rfl : d = nd := by
      have hdmem : d ∈ [nd] := hd ▸ List.mem_append_right _ List.mem_cons_self
      exact List.mem_singleton.mp hdmem
    obtain ⟨rfl, rfl⟩ := eq_nil_of_singleton hd
    cases heq.symm.trans hstep
    refine ⟨_, hinv, c, hfreed, ?_⟩
    rw [← hroom, List.append_nil, List.append_nil]
    have hmin := minBlock_le_adjustLayout layout
    rw [minBlock] at hmin
    refine ⟨fun e he ↦ ?_, fun b hb ↦ ?_⟩
    · have hlen := len_le_of_mem_carve hserves he
      rw [minAlign]
      omega
    · -- padding, or a piece at the end
      have hsize : (adjustLayout layout).1 + minAlign ≤ d.len := by
        by_cases hdvd : (adjustLayout layout).2 ∣ d.base
        · exact hpiece hdvd (size_le_of_serves hserves)
        · exact add_minAlign_le_of_serves hserves (h.node_aligned d hmem) hdvd
      have hb' : b ∈ ({⟨ceilAlign d.base (adjustLayout layout).2, layout⟩} : Multiset _) := by
        rw [hlive] at hb
        exact hb
      rw [Multiset.mem_singleton.mp hb']
      show (adjustLayout layout).1 / minAlign < _
      rw [minAlign] at hsize ⊢
      omega

/-! ## Runs -/

theorem step_regions {call : HeapCall} {r : ℕ} (hclient : call.IsClient)
    (hstep : s.step call = some (r, s')) : s'.regions = s.regions := by
  cases call with
  | init start size => exact hclient.elim
  | alloc layout =>
    obtain ⟨x, -, hx⟩ := Option.map_eq_some_iff.mp hstep
    cases hx
    rfl
  | dealloc ptr layout =>
    cases hstep
    rfl
  | store addr value =>
    cases hstep
    rfl

theorem exists_step_of_next {call : HeapCall} {guard : HeapSys → Layout → Prop}
    (h : (heapSystem guard).step s call s') :
    s.Legal guard call ∧ ∃ r, s.step call = some (r, s') := by
  obtain ⟨hlegal, hnext⟩ := h
  obtain ⟨⟨r, t⟩, hstep, rfl⟩ := Option.map_eq_some_iff.mp hnext
  exact ⟨hlegal, r, hstep⟩

/-- A region that is whole and free serves what it served at first. -/
theorem Whole.satisfies (hw : s.Whole start size nodes) (h : s.Inv nodes) (hlive : s.live = 0)
    (hpos : 0 < start) (hend : start + size ≤ wordSize)
    (hfresh : (fresh m start size).Satisfies layout) : s.Satisfies layout := by
  have hinv := inv_fresh (m := m) hpos hend
  obtain ⟨nd, hnd, htaken, hptr⟩ := hinv.exists_of_satisfies hfresh
  rcases hw with ⟨-, hroom⟩ | ⟨-, b, c, hb, -⟩
  · obtain ⟨c, hc⟩ : ∃ c, freed start size = [c] := by
      rcases freed_cases start size with hnil | hc
      · rw [hnil] at hnd
        exact absurd hnd List.not_mem_nil
      · exact hc
    have hdvd := hinv.node_aligned nd hnd
    rw [hc, List.mem_singleton] at hnd
    rw [hc, ← hnd, List.forall₂_cons_right_iff] at hroom
    obtain ⟨d, rest, hd, hrest, rfl⟩ := hroom
    rw [List.forall₂_nil_right_iff.mp hrest] at h
    have hsame : SameRoom nd d := ⟨hd.1.symm, hd.2.symm⟩
    exact h.satisfies_of_taken (hsame.taken htaken hdvd) (hd.1 ▸ hptr)
  · rw [hb] at hlive
    exact absurd hlive (Multiset.singleton_ne_zero b)

theorem minAlign_pow : ∃ k, minAlign = 2 ^ k := ⟨3, rfl⟩

theorem largest_size_le {n : ℕ} (h : n < 2 ^ 63) : n / minAlign * minAlign + minAlign ≤ 2 ^ 63 := by
  rw [minAlign]
  omega

/-- The largest request that a region has room for. -/
def largest (f : Span) (h : f.len < 2 ^ 63) : Layout where
  size := f.len / minAlign * minAlign
  align := minAlign
  align_pow := minAlign_pow
  size_le := largest_size_le h

theorem adjustLayout_largest {f : Span} (h : f.len < 2 ^ 63) (hf : minBlock ≤ f.len) :
    adjustLayout (largest f h) = (f.len / minAlign * minAlign, minAlign) := by
  have hmax : max (f.len / minAlign * minAlign) minBlock = f.len / minAlign * minAlign := by
    refine max_eq_left ?_
    rw [minBlock, minAlign] at *
    omega
  refine Prod.ext ?_ rfl
  rw [(adjustLayout_size _).1]
  show ceilAlign (max (f.len / minAlign * minAlign) minBlock) minAlign = _
  rw [hmax, ceilAlign_of_dvd (by norm_num [minAlign]) (dvd_mul_left _ _)]

/-- **A region that was cut** no longer serves the largest request. -/
theorem Cut.exists_not_satisfies (hc : s.Cut start size nodes) (h : s.Inv nodes)
    (hregions : s.regions = [⟨start, size⟩]) (hpos : 0 < start)
    (hfar : start + 2 * size ≤ wordSize) :
    ∃ layout, (fresh m start size).Satisfies layout ∧ ¬s.Satisfies layout := by
  obtain ⟨f, hf, hnodes, -⟩ := hc
  have hinv : (fresh m start size).Inv (freed start size) := inv_fresh hpos (by omega)
  rw [hf] at hinv
  have hmem := List.mem_singleton_self f
  have hlen := hinv.node_len f hmem
  obtain ⟨r, hr, hlo, hhi⟩ := hinv.node_within f hmem
  obtain rfl := List.mem_singleton.mp hr
  dsimp only at hlo hhi
  have hsmall : f.len < 2 ^ 63 := by
    rw [wordSize] at hfar
    omega
  have hadjust := adjustLayout_largest hsmall hlen
  have hround : f.len / minAlign * minAlign ≤ f.len := Nat.div_mul_le_self _ _
  have hceil : ∀ {a : ℕ}, minAlign ∣ a → ceilAlign a minAlign = a :=
    fun h ↦ ceilAlign_of_dvd (by norm_num [minAlign]) h
  rw [minBlock] at hlen
  refine ⟨largest f hsmall, hinv.satisfies_of_taken ?_ ?_, fun hs ↦ ?_⟩
  · refine (hinv.taken_iff hmem).mpr (.inl ⟨?_, .inl (by omega)⟩)
    rw [Span.Fits, hadjust, hceil (hinv.node_aligned f hmem)]
    exact Nat.add_le_add_left hround _
  · have halign : alignUp f.base minAlign = ceilAlign f.base minAlign % wordSize :=
      alignUp_two_pow (k := 3) _ (by omega)
    rw [hadjust, halign, hceil (hinv.node_aligned f hmem), Nat.mod_eq_of_lt (by omega)]
    omega
  · obtain ⟨nd, hnd, htaken, -⟩ := h.exists_of_satisfies hs
    have hcut := hnodes nd hnd
    have hbase := hceil (h.node_aligned nd hnd)
    obtain ⟨r, hr, hlo', hhi'⟩ := h.node_within nd hnd
    rw [hregions, List.mem_singleton] at hr
    rw [hr] at hlo' hhi'
    have hpos' := h.node_len nd hnd
    rw [minBlock] at hpos'
    rcases (h.taken_iff hnd).mp htaken with hserves | ⟨-, hwraps⟩
    · have hle := size_le_of_serves hserves
      rw [hadjust] at hle
      exact absurd hcut (not_lt.mpr ((Nat.le_div_iff_mul_le (by norm_num [minAlign])).mpr hle))
    · rw [hadjust, hbase] at hwraps
      dsimp only at hwraps hlo' hhi'
      omega

variable {calls : List (HeapSys × HeapCall)}

theorem whole_of_run (hpos : 0 < start) (hend : start + size ≤ wordSize)
    (hrun : (heapSystem fun _ _ ↦ True).Run (fresh m start size) calls s)
    (hcalls : ∀ p ∈ calls, p.2.IsClient ∧ p.1.TakesWhole p.2) :
    ∃ nodes, s.Inv nodes ∧ s.Whole start size nodes := by
  refine hrun.invariant (P := fun s ↦ ∃ nodes, s.Inv nodes ∧ s.Whole start size nodes)
    (Q := fun s call ↦ call.IsClient ∧ s.TakesWhole call) hcalls
    ⟨_, inv_fresh hpos hend, whole_fresh⟩ ?_
  rintro s call s' ⟨nodes, h, hw⟩ ⟨hclient, hwhole⟩ hstep
  obtain ⟨hlegal, r, hstep⟩ := exists_step_of_next hstep
  exact hw.step h hclient hlegal hwhole hstep

/-- A run whose requests do not wrap has left the region whole throughout, or has cut it. -/
theorem whole_or_cut_of_run (hpos : 0 < start) (hend : start + size ≤ wordSize)
    (hrun : (heapSystem fun _ _ ↦ True).Run (fresh m start size) calls s)
    (hcalls : ∀ p ∈ calls, p.2.IsClient ∧ p.1.Legal NoWrap p.2) :
    s.regions = [⟨start, size⟩] ∧ ∃ nodes, s.Inv nodes
      ∧ ((s.Whole start size nodes ∧ ∀ p ∈ calls, p.1.TakesWhole p.2)
        ∨ s.Cut start size nodes) := by
  induction hrun with
  | nil => exact ⟨rfl, _, inv_fresh hpos hend, .inl ⟨whole_fresh, fun _ h ↦ nomatch h⟩⟩
  | @snoc l s s' call _ hstep ih =>
    obtain ⟨hregions, nodes, h, hcase⟩ := ih fun p hp ↦ hcalls p (List.mem_append_left _ hp)
    obtain ⟨hclient, hlegal⟩ := hcalls (s, call) (List.mem_append_right _ List.mem_cons_self)
    obtain ⟨htrue, r, hstep⟩ := exists_step_of_next hstep
    refine ⟨(step_regions hclient hstep).trans hregions, ?_⟩
    rcases hcase with ⟨hw, hwhole⟩ | hc
    · by_cases hnow : s.TakesWhole call
      · obtain ⟨nodes', h', hw'⟩ := hw.step h hclient htrue hnow hstep
        refine ⟨nodes', h', .inl ⟨hw', List.forall_mem_append.mpr ⟨hwhole, ?_⟩⟩⟩
        exact List.forall_mem_singleton.mpr hnow
      · obtain ⟨nodes', h', hc'⟩ := hw.cut h hlegal hnow hstep
        exact ⟨nodes', h', .inr hc'⟩
    · obtain ⟨nodes', h', hc'⟩ := hc.step h hclient hlegal hstep
      exact ⟨nodes', h', .inr hc'⟩

end HeapSys

open HeapSys in
/-- **Recovery from fragmentation.** A run on one region that leaves no block live recovers, in that
every request that could be satisfied at first can be satisfied again, if every request in the run
takes a free block whole; and, in runs whose requests do not wrap on a region that is not at the top
of the address space, only then. -/
theorem heap_recovers_iff {m : Memory} {start size : ℕ} (hpos : 0 < start)
    (hend : start + size ≤ wordSize) {calls : List (HeapSys × HeapCall)} {s : HeapSys}
    (hrun : (heapSystem fun _ _ ↦ True).Run (fresh m start size) calls s)
    (hclient : ∀ p ∈ calls, p.2.IsClient) (hlive : s.live = 0) :
    ((∀ p ∈ calls, p.1.TakesWhole p.2) →
        ∀ layout, (fresh m start size).Satisfies layout → s.Satisfies layout)
      ∧ ((∀ p ∈ calls, p.1.Legal NoWrap p.2) → start + 2 * size ≤ wordSize →
        (∀ layout, (fresh m start size).Satisfies layout → s.Satisfies layout) →
        ∀ p ∈ calls, p.1.TakesWhole p.2) := by
  refine ⟨fun hwhole layout hfresh ↦ ?_, fun hlegal hfar hsat ↦ ?_⟩
  · obtain ⟨nodes, h, hw⟩ :=
      whole_of_run hpos hend hrun fun p hp ↦ ⟨hclient p hp, hwhole p hp⟩
    exact hw.satisfies h hlive hpos hend hfresh
  · obtain ⟨hregions, nodes, h, ⟨-, hwhole⟩ | hc⟩ :=
      whole_or_cut_of_run hpos hend hrun fun p hp ↦ ⟨hclient p hp, hlegal p hp⟩
    · exact hwhole
    · obtain ⟨layout, hfresh, hnot⟩ := hc.exists_not_satisfies h hregions hpos hfar
      exact absurd (hsat layout hfresh) hnot

/-- A page of memory. -/
def pageHeap : HeapSys := HeapSys.fresh (fun _ ↦ 0) 0x1000 0x1000

/-- A request for the page. -/
def pageLayout : Layout := ⟨0x1000, 8, HeapSys.minAlign_pow, by decide⟩

/-- A request for 64 bytes of it. -/
def smallLayout : Layout := ⟨64, 8, HeapSys.minAlign_pow, by decide⟩

/-- The page after a block was taken. -/
def pageTaken (layout : Layout) : HeapSys :=
  (pageHeap.step (.alloc layout)).elim pageHeap Prod.snd

/-- The page after the block was given back. -/
def pageBack (layout : Layout) : HeapSys :=
  ((pageTaken layout).step (.dealloc 0x1000 layout)).elim pageHeap Prod.snd

theorem run_pageBack (layout : Layout)
    (halloc : (pageHeap.step (.alloc layout)).isSome)
    (hlive : (⟨0x1000, layout⟩ : LiveBlock) ∈ (pageTaken layout).live) :
    (heapSystem fun _ _ ↦ True).Run pageHeap
      [(pageHeap, .alloc layout), (pageTaken layout, .dealloc 0x1000 layout)]
      (pageBack layout) := by
  obtain ⟨⟨ptr, s⟩, hstep⟩ := Option.isSome_iff_exists.mp halloc
  have htaken : pageTaken layout = s := by rw [pageTaken, hstep]; rfl
  refine .cons (M := heapSystem fun _ _ ↦ True) ⟨trivial, ?_⟩ (.cons ⟨hlive, rfl⟩ .nil)
  show (pageHeap.step (.alloc layout)).map Prod.snd = _
  rw [hstep, htaken]
  rfl

theorem isClient_pageBack (layout : Layout) :
    ∀ p ∈ [(pageHeap, HeapCall.alloc layout), (pageTaken layout, .dealloc 0x1000 layout)],
      p.2.IsClient :=
  List.forall_mem_cons.mpr ⟨trivial, List.forall_mem_singleton.mpr trivial⟩

/-- The theorem, for the page taken whole. -/
theorem heap_recovers_iff_page :
    (pageBack pageLayout).Satisfies pageLayout := by
  refine (heap_recovers_iff (by decide) (by decide)
    (run_pageBack pageLayout (by decide +kernel) (by decide +kernel))
    (isClient_pageBack pageLayout) (by decide +kernel)).1 ?_ pageLayout
    ⟨0x1000, by decide, by decide +kernel⟩
  refine List.forall_mem_cons.mpr ⟨?_, List.forall_mem_singleton.mpr trivial⟩
  intro pre nd post hfree _ _
  -- the free list is the page
  have hfresh : freed 0x1000 0x1000 = [⟨0x1000, 0x1000⟩] := by decide
  have hinv : pageHeap.Inv (freed 0x1000 0x1000) := HeapSys.inv_fresh (by decide) (by decide)
  have heq := hinv.freeList.unique hfree
  rw [hfresh] at heq
  have hnd : nd ∈ [(⟨0x1000, 0x1000⟩ : Span)] :=
    heq ▸ List.mem_append_right _ List.mem_cons_self
  rw [List.mem_singleton.mp hnd]
  decide +kernel

/-- **After 64 bytes were taken from a page and given back, the page is refused.** -/
theorem page_not_recovered :
    ¬∀ (m : Memory) (start size : ℕ), 0 < start → start + size ≤ wordSize →
      ∀ (calls : List (HeapSys × HeapCall)) (s : HeapSys),
        (heapSystem fun _ _ ↦ True).Run (HeapSys.fresh m start size) calls s →
        (∀ p ∈ calls, p.2.IsClient) → s.live = 0 →
        ∀ layout, (HeapSys.fresh m start size).Satisfies layout → s.Satisfies layout := by
  intro h
  have hrun := run_pageBack smallLayout (by decide +kernel) (by decide +kernel)
  obtain ⟨ptr, hptr, hstep⟩ := h _ _ _ (by decide) (by decide) _ _ hrun
    (isClient_pageBack smallLayout) (by decide +kernel) pageLayout
    ⟨0x1000, by decide, by decide +kernel⟩
  have hnull : ((pageBack smallLayout).step (.alloc pageLayout)).map Prod.fst = some 0 := by
    decide +kernel
  rw [hnull] at hstep
  exact hptr (Option.some.inj hstep).symm

end Zeroxos
