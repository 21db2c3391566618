import Zeroxos.Kernel.HeapSafety
import Mathlib.Data.Multiset.Pairwise

/-!
# The kernel heap leaves what clients store

The heap keeps its free list in the memory it manages, so every call writes memory. It writes
headers, of blocks that are on the free list before the call or are freed by it, and all of these
are disjoint from the live blocks. So a word of a live block holds what was last stored there,
whatever is allocated and freed around it.

## The runs

A request that wraps around the top of the address space is served from a block that has no room for
it, and its tail is written where the sum comes out, which may be inside a live block. The runs here
are those in which every request is far from the top (`FarFromTop`), and without that condition the
result is false.

## The proof

For each call there is a lemma that says where it writes (`addFreeRegion_mem`, `takeRegion_mem`,
`dealloc_mem`), all of them for any memory. The invariant of `HeapSafety` then says that a live
block is elsewhere, and a run is followed call by call.
-/

namespace Zeroxos

namespace HeapMem

variable {w : HeapMem} {nodes pre post : List Span} {nd : Span} {a p addr n : ℕ}

/-! ## The words that are written -/

theorem writeBlock_of_notMem {b : FreeBlock} {m : Memory} {c : Span} (hp : p = c.base)
    (hlen : minBlock ≤ c.len) (ha : a ∉ c.cells) : writeBlock p b m a = m a := by
  rw [minBlock] at hlen
  have hne : ∀ q ∈ c.cells, a ≠ q := fun q hq h ↦ ha (h ▸ hq)
  have hsize : a ≠ p := hne p (Span.mem_cells.mpr (by omega))
  have hnext : a ≠ p + 8 := hne (p + 8) (Span.mem_cells.mpr (by omega))
  rw [writeBlock, if_neg hsize, if_neg hnext]

theorem addFreeRegion_mem (hpos : 0 < addr) (hend : addr + n ≤ wordSize)
    (ha : a ∉ (⟨addr, n⟩ : Span).cells) : (w.addFreeRegion addr n).mem a = w.mem a := by
  rw [addFreeRegion_eq w hpos hend]
  split_ifs with hroom
  · have hle : addr ≤ ceilAlign addr minAlign := le_ceilAlign (by norm_num [minAlign])
    have hin : Span.Within ⟨ceilAlign addr minAlign, minBlock⟩ ⟨addr, n⟩ := ⟨hle, hroom⟩
    exact writeBlock_of_notMem (c := ⟨ceilAlign addr minAlign, minBlock⟩) rfl le_rfl
      fun hmem ↦ ha (hin.cells_subset hmem)
  · rfl

theorem reclaim_mem (hpos : minBlock ≤ n → 0 < addr) (hend : minBlock ≤ n → addr + n ≤ wordSize)
    (ha : minBlock ≤ n → a ∉ (⟨addr, n⟩ : Span).cells) : (w.reclaim addr n).mem a = w.mem a := by
  rw [reclaim]
  split_ifs with hn
  · exact addFreeRegion_mem (hpos hn) (hend hn) (ha hn)
  · rfl

theorem setTotal_mem (n : ℕ) (w : HeapMem) : (w.setTotal n).mem = w.mem := rfl

theorem setAllocated_mem (n : ℕ) (w : HeapMem) : (w.setAllocated n).mem = w.mem := rfl

/-- **`init`** writes inside the new region. -/
theorem init_mem (hpos : 0 < addr) (hend : addr + n ≤ wordSize)
    (ha : a ∉ (⟨addr, n⟩ : Span).cells) : (w.init addr n).mem a = w.mem a := by
  rw [init_eq, setTotal_mem]
  exact addFreeRegion_mem hpos hend ha

/-- **`dealloc`** writes inside the block. -/
theorem dealloc_mem {layout : Layout} (hpos : 0 < addr)
    (hend : addr + (adjustLayout layout).1 ≤ wordSize)
    (ha : a ∉ (⟨addr, (adjustLayout layout).1⟩ : Span).cells) :
    (w.dealloc addr layout).mem a = w.mem a := by
  rw [dealloc_eq, setAllocated_mem]
  exact addFreeRegion_mem hpos hend ha

/-- A block is taken off the list by writing its header and the one before it. -/
theorem detach_mem (hw : FreeSpans (pre ++ nd :: post))
    (ha : ∀ c ∈ pre ++ nd :: post, a ∉ c.cells) :
    (w.detach (pre.getLast?.map Span.base) nd.base).mem a = w.mem a := by
  have hnd : nd ∈ pre ++ nd :: post := List.mem_append_right _ List.mem_cons_self
  have hself : ∀ b, (w.write nd.base b).mem a = w.mem a := fun b ↦
    writeBlock_of_notMem rfl (hw.minBlock_le nd hnd) (ha nd hnd)
  cases hlast : pre.getLast? with
  | none => exact hself _
  | some c =>
    have hc : c ∈ pre ++ nd :: post := List.mem_append_left _ (List.mem_of_getLast? hlast)
    exact (writeBlock_of_notMem rfl (hw.minBlock_le c hc) (ha c hc)).trans (hself _)

/-- **A request** writes headers of free blocks only. -/
theorem FreeList.takeRegion_mem {size align k : ℕ} (h : w.FreeList (pre ++ nd :: post))
    (hw : FreeSpans (pre ++ nd :: post)) (hend : nd.base + nd.len ≤ wordSize) (hk : k ≤ 63)
    (halign : align = 2 ^ k) (hpos : 0 < size) (hserves : nd.Serves size align)
    (ha : ∀ c ∈ pre ++ nd :: post, a ∉ c.cells) :
    (w.takeRegion (pre.getLast?.map Span.base) nd.base size align).2.mem a = w.mem a := by
  subst halign
  have hfits : ceilAlign nd.base (2 ^ k) + size ≤ nd.base + nd.len := hserves.1
  have hnd : nd ∈ pre ++ nd :: post := List.mem_append_right _ List.mem_cons_self
  have hbase : 0 < nd.base := hw.pos nd hnd
  have hle := le_ceilAlign (a := nd.base) (Nat.two_pow_pos k)
  have hstart : alignUp nd.base (2 ^ k) = ceilAlign nd.base (2 ^ k) := by
    rw [alignUp_two_pow _ hk, Nat.mod_eq_of_lt (by omega)]
  have hpad : wsub (ceilAlign nd.base (2 ^ k)) nd.base = ceilAlign nd.base (2 ^ k) - nd.base :=
    wsub_of_le hle (by omega)
  have htail : wsub (wadd nd.base nd.len) (wadd (ceilAlign nd.base (2 ^ k)) size)
      = nd.base + nd.len - (ceilAlign nd.base (2 ^ k) + size) := by
    have := hserves.2
    rw [wsub, wadd, wadd, wordSize] at *
    omega
  have hread : (readBlock w.mem nd.base).size = nd.len := h.size nd hnd
  -- both pieces lie in the span taken
  have hin : ∀ {c : Span}, c.Within nd → a ∉ c.cells := fun hc hmem ↦
    ha nd hnd (hc.cells_subset hmem)
  have hpadIn : Span.Within ⟨nd.base, ceilAlign nd.base (2 ^ k) - nd.base⟩ nd :=
    ⟨le_rfl, by dsimp only; omega⟩
  have htailIn : Span.Within ⟨ceilAlign nd.base (2 ^ k) + size,
      nd.base + nd.len - (ceilAlign nd.base (2 ^ k) + size)⟩ nd :=
    ⟨by dsimp only; omega, by dsimp only; omega⟩
  have hend' : minBlock ≤ nd.base + nd.len - (ceilAlign nd.base (2 ^ k) + size) →
      wadd (ceilAlign nd.base (2 ^ k)) size = ceilAlign nd.base (2 ^ k) + size := fun hroom ↦
    wadd_of_lt (by rw [minBlock] at hroom; omega)
  rw [takeRegion_eq, hstart, hread, setAllocated_mem, carveRegion, hpad, htail]
  calc
    _ = _ := reclaim_mem (fun hroom ↦ hend' hroom ▸ by omega)
      (fun hroom ↦ by rw [hend' hroom]; omega) fun hroom ↦ by rw [hend' hroom]; exact hin htailIn
    _ = _ := reclaim_mem (fun _ ↦ hbase) (fun _ ↦ by omega) fun _ ↦ hin hpadIn
    _ = w.mem a := detach_mem hw ha

end HeapMem

/-! ## What is stored -/

/-- What a call stores at an address. -/
def HeapCall.stored (a : ℕ) : HeapCall → Option ℕ
  | .store addr value => if addr = a then some value else none
  | _ => none

/-- What calls stored at an address last. -/
def lastStored (a : ℕ) (calls : List HeapCall) : Option ℕ :=
  calls.foldl (fun v call ↦ (call.stored a).or v) none

/-- A call does not free this block. -/
def HeapCall.Spares (b : LiveBlock) : HeapCall → Prop
  | .dealloc ptr layout => (⟨ptr, layout⟩ : LiveBlock) ≠ b
  | _ => True

instance (b : LiveBlock) : DecidablePred (HeapCall.Spares b)
  | .init _ _ => .isTrue trivial
  | .alloc _ => .isTrue trivial
  | .dealloc _ _ => inferInstanceAs (Decidable (_ ≠ _))
  | .store _ _ => .isTrue trivial

/-- A word of a block. -/
def LiveBlock.Word (b : LiveBlock) (a : ℕ) : Prop :=
  minAlign ∣ a ∧ Span.Within ⟨a, minAlign⟩ b.span

theorem lastStored_concat (a : ℕ) (calls : List HeapCall) (call : HeapCall) :
    lastStored a (calls ++ [call]) = (call.stored a).or (lastStored a calls) := by
  rw [lastStored, List.foldl_append]
  rfl

namespace HeapSys

open HeapMem

variable {s s' t : HeapSys} {nodes : List Span} {call : HeapCall} {b b' : LiveBlock} {a r : ℕ}

theorem Inv.live_disjoint (h : s.Inv nodes) (hb : b ∈ s.live) (hb' : b' ∈ s.live) (hne : b ≠ b') :
    Disjoint b.cells b'.cells := by
  have hsymm : Std.Symm fun a b : LiveBlock ↦ Disjoint a.cells b.cells := ⟨fun _ _ h ↦ h.symm⟩
  exact Multiset.Pairwise.forall h.live_pairwise hb hb' hne

theorem Inv.alloc_mem (h : s.Inv nodes) {layout : Layout} (hfar : s.FarFromTop layout)
    {w : HeapMem} (halloc : s.world.allocFirstFit layout = some (r, w))
    (ha : ∀ nd ∈ nodes, a ∉ nd.cells) : w.mem a = s.world.mem a := by
  obtain ⟨k, -, hk63, hk, -⟩ := adjustLayout_align layout
  have hsize : 0 < (adjustLayout layout).1 :=
    (by norm_num [minBlock] : 0 < minBlock).trans_le (minBlock_le_adjustLayout layout)
  rcases h.freeList.allocFirstFit layout h.freeSpans fun nd hnd ↦ (h.node_bounded hnd).2 with
    ⟨-, heq⟩ | ⟨pre, nd, post, rfl, -, hnd, heq⟩
  · obtain ⟨-, rfl⟩ := Prod.mk.inj (Option.some.inj (halloc.symm.trans heq))
    rfl
  · have hmem : nd ∈ pre ++ nd :: post := List.mem_append_right _ List.mem_cons_self
    have hserves : nd.Serves (adjustLayout layout).1 (adjustLayout layout).2 :=
      hnd.resolve_right fun hwraps ↦
        absurd hwraps.2 (not_le.mpr (h.lt_wordSize hfar hmem).2)
    have htake := congrArg Prod.snd (Option.some.inj (halloc.symm.trans heq))
    exact (congrArg (fun w ↦ HeapMem.mem w a) htake).trans
      (h.freeList.takeRegion_mem h.freeSpans (h.node_bounded hmem).2 hk63 hk hsize hserves ha)

theorem live_of_step (hstep : s.step call = some (r, s')) (hb : b ∈ s.live)
    (hspares : call.Spares b) : b ∈ s'.live := by
  cases call with
  | init start size =>
    obtain ⟨-, rfl⟩ := Prod.mk.inj (Option.some.inj hstep)
    exact hb
  | alloc layout =>
    obtain ⟨⟨ptr, w⟩, -, heq⟩ := Option.map_eq_some_iff.mp hstep
    obtain ⟨-, rfl⟩ := Prod.mk.inj heq
    dsimp only
    split_ifs
    · exact hb
    · exact Multiset.mem_cons_of_mem hb
  | dealloc ptr layout =>
    obtain ⟨-, rfl⟩ := Prod.mk.inj (Option.some.inj hstep)
    exact (Multiset.mem_erase_of_ne hspares.symm).mpr hb
  | store addr value =>
    obtain ⟨-, rfl⟩ := Prod.mk.inj (Option.some.inj hstep)
    exact hb

/-- **The step lemma.** A call that does not free a block leaves its words as they were, but for the
one that is stored. -/
theorem Inv.step_mem (h : s.Inv nodes) (hlegal : s.Legal FarFromTop call)
    (hstep : s.step call = some (r, s')) (hb : b ∈ s.live) (ha : b.Word a)
    (hspares : call.Spares b) : s'.world.mem a = (call.stored a).getD (s.world.mem a) := by
  have hcell : a ∈ b.cells := ha.2.cells_subset
    (Span.mem_cells.mpr ⟨le_rfl, Nat.lt_add_of_pos_right (by norm_num [minAlign])⟩)
  have hfree : ∀ nd ∈ nodes, a ∉ nd.cells := fun nd hnd hmem ↦
    Finset.disjoint_left.mp (h.node_disjoint_live hnd hb) hmem hcell
  cases call with
  | init start size =>
    obtain ⟨hpos, hend, hapart⟩ := hlegal
    obtain ⟨rg, hrg, hwithin⟩ := h.live_within b hb
    obtain ⟨-, rfl⟩ := Prod.mk.inj (Option.some.inj hstep)
    exact init_mem hpos hend fun hmem ↦
      Finset.disjoint_left.mp (hapart rg hrg).disjoint hmem (hwithin.cells_subset hcell)
  | alloc layout =>
    obtain ⟨⟨ptr, w⟩, halloc, heq⟩ := Option.map_eq_some_iff.mp hstep
    obtain ⟨-, rfl⟩ := Prod.mk.inj heq
    exact h.alloc_mem hlegal halloc hfree
  | dealloc ptr layout =>
    obtain ⟨hpos, hend⟩ := h.live_bounded hlegal
    obtain ⟨-, rfl⟩ := Prod.mk.inj (Option.some.inj hstep)
    exact dealloc_mem hpos hend fun hmem ↦
      Finset.disjoint_left.mp (h.live_disjoint hlegal hb hspares) hmem hcell
  | store addr value =>
    obtain ⟨-, rfl⟩ := Prod.mk.inj (Option.some.inj hstep)
    rw [HeapCall.stored]
    split_ifs with haddr
    · rw [haddr]
      exact Function.update_self ..
    · exact Function.update_of_ne (Ne.symm haddr) ..

end HeapSys

/-- **The heap leaves what clients store.** From any state of a run whose requests are far from the
top, as long as a block is not freed, a word of it holds what was last stored there, or what it held
at the start: no call of the heap, and no other client, changes it. -/
theorem heap_keeps_contents {s t : HeapSys} {l : List (HeapSys × HeapCall)} {b : LiveBlock} {a : ℕ}
    (hs : (heapSystem HeapSys.FarFromTop).Reachable s)
    (hrun : (heapSystem HeapSys.FarFromTop).Run s l t) (hb : b ∈ s.live) (ha : b.Word a)
    (hspares : ∀ p ∈ l, p.2.Spares b) :
    b ∈ t.live ∧ t.world.mem a = (lastStored a (l.map Prod.snd)).getD (s.world.mem a) := by
  induction hrun with
  | nil => exact ⟨hb, rfl⟩
  | @snoc l u t call hrun hstep ih =>
    obtain ⟨hlive, hmem⟩ := ih fun p hp ↦ hspares p (List.mem_append_left _ hp)
    obtain ⟨nodes, hinv⟩ :=
      HeapSys.inv_of_reachable (fun _ _ _ hinv hfar ↦ hinv.noWrap hfar) (hs.run hrun)
    obtain ⟨⟨r, t'⟩, hcall, rfl⟩ := Option.map_eq_some_iff.mp hstep.2
    have hspared := hspares _ (List.mem_append_right _ List.mem_cons_self)
    refine ⟨HeapSys.live_of_step hcall hlive hspared, ?_⟩
    rw [List.map_append, List.map_singleton, lastStored_concat,
      hinv.step_mem hstep.1 hcall hlive ha hspared, hmem]
    cases call.stored a <;> rfl

/-- A block keeps its first word while the one behind it is taken, written and freed. -/
theorem heap_keeps_contents_page :
    let layout : Layout := ⟨64, 8, ⟨3, rfl⟩, by decide⟩
    let M := HeapSys.machine HeapSys.FarFromTop
    ∃ s t, M.run [.init 0x1000 0x1000, .alloc layout] HeapSys.boot = some s ∧
      M.run [.store 0x1000 7, .alloc layout, .store 0x1040 9, .dealloc 0x1040 layout] s = some t ∧
      t.world.mem 0x1000 = 7 := by
  intro layout M
  let first : List HeapCall := [.init 0x1000 0x1000, .alloc layout]
  let rest : List HeapCall :=
    [.store 0x1000 7, .alloc layout, .store 0x1040 9, .dealloc 0x1040 layout]
  let s := (M.run first HeapSys.boot).get (by decide +kernel)
  let t := (M.run rest s).get (by decide +kernel)
  have hs : M.run first HeapSys.boot = some s := (Option.some_get _).symm
  have ht : M.run rest s = some t := (Option.some_get _).symm
  obtain ⟨l, hrun, hcalls⟩ := Machine.exists_run ht
  have hlive : (⟨0x1000, layout⟩ : LiveBlock) ∈ s.live := by decide +kernel
  obtain ⟨-, hmem⟩ := heap_keeps_contents (a := 0x1000)
    (Machine.reachable_run HeapSys.reachable_boot hs) hrun hlive
    ⟨by decide, by decide⟩ fun p hp ↦ by
      have hspares : ∀ call ∈ rest, call.Spares ⟨0x1000, layout⟩ := by decide +kernel
      exact hspares p.2 (hcalls ▸ List.mem_map_of_mem hp)
  exact ⟨s, t, hs, ht, by rw [hmem, hcalls]; rfl⟩

end Zeroxos
