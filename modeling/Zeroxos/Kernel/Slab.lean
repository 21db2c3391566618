import Zeroxos.Kernel.HeapContents

/-!
# The slab allocator

`SlabAllocator`: objects of one size that are taken from the kernel heap, handed out, and kept for
reuse when they are given back. They never go back to the heap.

## The system

Any number of slabs share the heap with clients that call it directly; the vector of a free list is
such a client, like any other. The runs interleave all of them. Next to the state the system carries
what the clients know: which objects are out, how often a slab answered null, and the most objects
that were out at a time.

As for the heap, every request is far from the top of the address space, a slab's too
(`FarFromTop`); the contents of an object are not safe from a request that is not.

## The invariant

Objects that are out or kept are live blocks of the heap, and no two slabs have the same one
(`Owned`). That is preserved because a run of the slabs is a run of the heap in which no object is
freed (`exists_heapRun`), so what is known of live blocks is known of objects. Then a slab has taken
as many from the heap as were out at a time and no more, and an object holds what was last stored in
it. The counter `in_use` also counts the answers that were null.
-/

namespace Zeroxos

structure SlabAllocator where
  objectSize : ℕ
  freeList : List ℕ
  inUse : ℕ

namespace SlabAllocator

def new (objectSize : ℕ) : SlabAllocator := ⟨objectSize, [], 0⟩

theorem exists_eight_eq_pow : ∃ k, 8 = 2 ^ k := ⟨3, rfl⟩

/-- `Layout::from_size_align(self.object_size, 8)` -/
def layout (slab : SlabAllocator) : Option Layout :=
  if h : slab.objectSize + 8 ≤ 2 ^ 63 then some ⟨slab.objectSize, 8, exists_eight_eq_pow, h⟩
  else none

/-- `SlabAllocator::alloc`. It panics when there is no such layout. -/
def alloc (slab : SlabAllocator) (heap : HeapSys) : Option (ℕ × SlabAllocator × HeapSys) :=
  match slab.freeList.getLast? with
  | some ptr =>
    some (ptr, { slab with
      freeList := slab.freeList.dropLast
      inUse := wadd slab.inUse 1 }, heap)
  | none => do
    let layout ← slab.layout
    let (ptr, heap) ← heap.step (.alloc layout)
    some (ptr, { slab with inUse := wadd slab.inUse 1 }, heap)

def free (slab : SlabAllocator) (ptr : ℕ) : SlabAllocator :=
  { slab with freeList := slab.freeList ++ [ptr], inUse := wsub slab.inUse 1 }

end SlabAllocator

/-! ## The system -/

/-- What happens to the slabs, and to the heap under them. -/
inductive SlabCall (ι : Type*)
  | alloc (i : ι)
  | free (i : ι) (ptr : ℕ)
  | heap (call : HeapCall)

/-- The slabs over the heap, and what their clients know. -/
structure SlabSys (ι : Type*) where
  heap : HeapSys
  slabs : ι → SlabAllocator
  /-- The objects of a slab that are out. -/
  held : ι → Multiset ℕ
  /-- How often a slab answered null. -/
  failed : ι → ℕ
  /-- The most objects of a slab that were out at a time. -/
  most : ι → ℕ

/-- The block that a call of the heap frees. -/
def HeapCall.freed : HeapCall → Option ℕ
  | .dealloc ptr _ => some ptr
  | _ => none

theorem HeapCall.spares_of_freed {call : HeapCall} {ptr : ℕ} (h : call.freed ≠ some ptr)
    (layout : Layout) : call.Spares ⟨ptr, layout⟩ := by
  cases call with
  | dealloc p l => exact fun heq ↦ h (congrArg some (LiveBlock.mk.inj heq).1)
  | init start size => trivial
  | alloc layout => trivial
  | store addr value => trivial

/-- The heap calls among the calls. -/
def SlabCall.heapCall {ι : Type*} : SlabCall ι → Option HeapCall
  | .heap call => some call
  | _ => none

namespace SlabSys

variable {ι : Type*}

/-- The objects of a slab: those that are out and those that are kept. -/
def objects (s : SlabSys ι) (i : ι) : Multiset ℕ := s.held i + (s.slabs i).freeList

variable [DecidableEq ι]

/-- What the client of a slab learns from an answer. -/
def handOut (s : SlabSys ι) (i : ι) (ptr : ℕ) : SlabSys ι :=
  if ptr = 0 then { s with failed := Function.update s.failed i (s.failed i + 1) }
  else { s with
    held := Function.update s.held i (ptr ::ₘ s.held i)
    most := Function.update s.most i (max (s.most i) (s.held i).card.succ) }

/-- One call, `none` when it does not return. -/
def next (s : SlabSys ι) : SlabCall ι → Option (SlabSys ι)
  | .alloc i => ((s.slabs i).alloc s.heap).map fun (ptr, slab, heap) ↦
      { s with heap := heap, slabs := Function.update s.slabs i slab }.handOut i ptr
  | .free i ptr => some { s with
      slabs := Function.update s.slabs i ((s.slabs i).free ptr)
      held := Function.update s.held i ((s.held i).erase ptr) }
  | .heap call => (s.heap.step call).map fun (_, heap) ↦ { s with heap := heap }

/-- What a call may assume: an object is given back to its slab while it is out, and nobody else
frees it. -/
def Legal (s : SlabSys ι) : SlabCall ι → Prop
  | .alloc i => ∀ layout ∈ (s.slabs i).layout, s.heap.FarFromTop layout
  | .free i ptr => ptr ∈ s.held i
  | .heap call => s.heap.Legal HeapSys.FarFromTop call ∧
      ∀ i, ∀ ptr ∈ s.objects i, call.freed ≠ some ptr

instance [Fintype ι] (s : SlabSys ι) : DecidablePred s.Legal
  | .alloc i => inferInstanceAs (Decidable (∀ layout ∈ (s.slabs i).layout, _))
  | .free i ptr => inferInstanceAs (Decidable (ptr ∈ s.held i))
  | .heap _ => inferInstanceAs (Decidable (_ ∧ ∀ i, ∀ ptr ∈ s.objects i, _))

/-- The slabs and their contract. A run starts with an empty heap and new slabs. -/
def machine : Machine (SlabSys ι) (SlabCall ι) where
  init s := (HeapSys.machine HeapSys.FarFromTop).init s.heap ∧
    (∀ i, ∃ size, s.slabs i = .new size) ∧ s.held = 0 ∧ s.failed = 0 ∧ s.most = 0
  Legal := Legal
  next := next

instance [Fintype ι] (s : SlabSys ι) (call : SlabCall ι) :
    Decidable ((machine (ι := ι)).Legal s call) :=
  inferInstanceAs (Decidable (s.Legal call))

end SlabSys

/-! ## Who owns the objects -/

section Owned

variable {ι : Type*} {heap heap' : HeapSys} {layouts : ι → Option Layout} {objects : ι → Multiset ℕ}
  {call : HeapCall} {layout : Layout} {i : ι} {ptr r : ℕ}

/-- The objects are live blocks of the heap, and nobody's are another's. -/
structure Owned (heap : HeapSys) (layouts : ι → Option Layout) (objects : ι → Multiset ℕ) :
    Prop where
  live : ∀ i, ∀ ptr ∈ objects i,
    ∃ layout, layouts i = some layout ∧ (⟨ptr, layout⟩ : LiveBlock) ∈ heap.live
  nodup : ∀ i, (objects i).Nodup
  apart : ∀ i j, i ≠ j → Disjoint (objects i) (objects j)

theorem HeapSys.Inv.fresh {s : HeapSys} {nodes : List Span} (h : s.Inv nodes) {b b' : LiveBlock}
    {live : Multiset LiveBlock} (hlive : s.live = b ::ₘ live) (hb' : b' ∈ live) :
    b'.ptr ≠ b.ptr := by
  have hbegins : ∀ b : LiveBlock, b.ptr ∈ b.cells := fun b ↦ by
    have hsize : minBlock ≤ b.size := HeapMem.minBlock_le_adjustLayout b.layout
    rw [minBlock] at hsize
    exact Span.mem_cells.mpr ⟨le_rfl, Nat.lt_add_of_pos_right (show 0 < b.size by omega)⟩
  have hnodup := (Multiset.nodup_add.mp h.nodup_add).2.1
  rw [hlive, cover_cons] at hnodup
  intro heq
  exact Multiset.disjoint_left.mp (Multiset.nodup_add.mp hnodup).2.2 (hbegins b)
    (mem_cover.mpr ⟨b', hb', heq ▸ hbegins b'⟩)

namespace Owned

theorem step (h : Owned heap layouts objects) (hstep : heap.step call = some (r, heap'))
    (hspares : ∀ i, ∀ ptr ∈ objects i, ∀ layout, call.Spares ⟨ptr, layout⟩) :
    Owned heap' layouts objects where
  live i ptr hptr := by
    obtain ⟨layout, hlayout, hlive⟩ := h.live i ptr hptr
    exact ⟨layout, hlayout, HeapSys.live_of_step hstep hlive (hspares i ptr hptr layout)⟩
  nodup := h.nodup
  apart := h.apart

theorem take [DecidableEq ι] (h : Owned heap layouts objects) {nodes : List Span}
    (hinv : heap'.Inv nodes) (hlayout : layouts i = some layout)
    (hlive : heap'.live = ⟨ptr, layout⟩ ::ₘ heap.live) :
    Owned heap' layouts (Function.update objects i (ptr ::ₘ objects i)) := by
  have hnew : ∀ j, ptr ∉ objects j := fun j hptr ↦ by
    obtain ⟨layout', -, hlive'⟩ := h.live j ptr hptr
    exact hinv.fresh hlive hlive' rfl
  refine ⟨fun j p hp ↦ ?_, fun j ↦ ?_, fun j k hjk ↦ ?_⟩
  · have hold : ∀ j, ∀ p ∈ objects j, ∃ layout, layouts j = some layout ∧
        (⟨p, layout⟩ : LiveBlock) ∈ heap'.live := fun j p hp ↦ by
      obtain ⟨layout', hlayout', hlive'⟩ := h.live j p hp
      exact ⟨layout', hlayout', hlive ▸ Multiset.mem_cons_of_mem hlive'⟩
    rcases eq_or_ne j i with rfl | hj
    · rw [Function.update_self, Multiset.mem_cons] at hp
      rcases hp with rfl | hp
      · exact ⟨layout, hlayout, hlive ▸ Multiset.mem_cons_self _ _⟩
      · exact hold j p hp
    · rw [Function.update_of_ne hj] at hp
      exact hold j p hp
  · rcases eq_or_ne j i with rfl | hj
    · rw [Function.update_self]
      exact Multiset.nodup_cons.mpr ⟨hnew j, h.nodup j⟩
    · rw [Function.update_of_ne hj]
      exact h.nodup j
  · have hdisjoint : ∀ {j}, i ≠ j → Disjoint (ptr ::ₘ objects i) (objects j) := fun {j} hij ↦
      Multiset.disjoint_cons_left.mpr ⟨hnew j, h.apart i j hij⟩
    rcases eq_or_ne j i with rfl | hj
    · rw [Function.update_self, Function.update_of_ne hjk.symm]
      exact hdisjoint hjk
    · rw [Function.update_of_ne hj]
      rcases eq_or_ne k i with rfl | hk
      · rw [Function.update_self]
        exact (hdisjoint hj.symm).symm
      · rw [Function.update_of_ne hk]
        exact h.apart j k hjk

end Owned

end Owned

namespace SlabAllocator

variable {slab slab' : SlabAllocator} {heap heap' : HeapSys} {ptr : ℕ}

/-- What `alloc` does: the object given back last, or one of the heap. -/
theorem alloc_cases (h : slab.alloc heap = some (ptr, slab', heap')) :
    slab'.objectSize = slab.objectSize ∧ slab'.inUse = wadd slab.inUse 1 ∧
      (slab.freeList = slab'.freeList ++ [ptr] ∧ heap' = heap ∨
        slab.freeList = [] ∧ slab'.freeList = [] ∧ ∃ layout, slab.layout = some layout ∧
          heap.step (.alloc layout) = some (ptr, heap')) := by
  rw [alloc] at h
  rcases List.eq_nil_or_concat slab.freeList with hnil | ⟨l, p, hconcat⟩
  · simp only [hnil, List.getLast?_nil, Option.bind_eq_bind, Option.bind_eq_some_iff,
      Option.some.injEq, Prod.mk.injEq, Prod.exists] at h
    obtain ⟨layout, hlayout, p, heap₁, hstep, rfl, rfl, rfl⟩ := h
    exact ⟨rfl, rfl, .inr ⟨hnil, rfl, layout, hlayout, hstep⟩⟩
  · rw [List.concat_eq_append] at hconcat
    simp only [hconcat, List.getLast?_concat, List.dropLast_concat, Option.some.injEq,
      Prod.mk.injEq] at h
    obtain ⟨rfl, rfl, rfl⟩ := h
    exact ⟨rfl, rfl, .inl ⟨hconcat, rfl⟩⟩

theorem layout_congr (h : slab'.objectSize = slab.objectSize) : slab'.layout = slab.layout := by
  simp only [layout, h]

end SlabAllocator

/-! ## The invariant -/

namespace SlabSys

variable {ι : Type*} {s s' t : SlabSys ι} {call : SlabCall ι} {i : ι} {ptr : ℕ}

/-- **The invariant.** -/
structure Inv (s : SlabSys ι) : Prop where
  heap : (heapSystem HeapSys.FarFromTop).Reachable s.heap
  owned : Owned s.heap (fun i ↦ (s.slabs i).layout) s.objects
  inUse : ∀ i, (s.slabs i).inUse = ((s.held i).card + s.failed i) % wordSize
  most : ∀ i, (s.objects i).card = s.most i

theorem Inv.exists_inv (h : s.Inv) : ∃ nodes, s.heap.Inv nodes :=
  HeapSys.inv_of_reachable (fun _ _ _ hinv hfar ↦ hinv.noWrap hfar) h.heap

theorem Inv.ne_zero (h : s.Inv) (hptr : ptr ∈ s.objects i) : ptr ≠ 0 := by
  obtain ⟨nodes, hinv⟩ := h.exists_inv
  obtain ⟨layout, -, hlive⟩ := h.owned.live i ptr hptr
  exact (hinv.live_bounded hlive).1.ne'

/-! ### What the calls do to the objects -/

variable [DecidableEq ι] {heap : HeapSys} {slab : SlabAllocator}

/-- The state when a slab has been called. -/
def called (s : SlabSys ι) (heap : HeapSys) (i : ι) (slab : SlabAllocator) : SlabSys ι :=
  { s with heap := heap, slabs := Function.update s.slabs i slab }

theorem layout_called (heap : HeapSys) (hsize : slab.objectSize = (s.slabs i).objectSize) :
    (fun j ↦ ((s.called heap i slab).slabs j).layout) = fun j ↦ (s.slabs j).layout := by
  funext j
  rcases eq_or_ne j i with rfl | hj
  · exact (congrArg SlabAllocator.layout (Function.update_self ..)).trans
      (SlabAllocator.layout_congr hsize)
  · exact congrArg SlabAllocator.layout (Function.update_of_ne hj ..)

theorem objects_called (s : SlabSys ι) (heap : HeapSys) (i : ι) (slab : SlabAllocator) :
    (s.called heap i slab).objects = Function.update s.objects i (s.held i + slab.freeList) := by
  funext j
  rcases eq_or_ne j i with rfl | hj
  · simp only [objects, called, Function.update_self]
  · simp only [objects, called, Function.update_of_ne hj]

theorem objects_handOut (s : SlabSys ι) (i : ι) (hptr : ptr ≠ 0) :
    (s.handOut i ptr).objects = Function.update s.objects i (ptr ::ₘ s.objects i) := by
  funext j
  rw [handOut, if_neg hptr]
  rcases eq_or_ne j i with rfl | hj
  · simp only [objects, Function.update_self, Multiset.cons_add]
  · simp only [objects, Function.update_of_ne hj]

/-! ### Every call keeps it -/

theorem inUse_handOut (h : s.Inv) (hcount : slab.inUse = wadd (s.slabs i).inUse 1) (ptr : ℕ)
    (j : ι) : (((s.called heap i slab).handOut i ptr).slabs j).inUse
      = ((((s.called heap i slab).handOut i ptr).held j).card
        + ((s.called heap i slab).handOut i ptr).failed j) % wordSize := by
  have hsame := h.inUse j
  rw [handOut]
  rcases eq_or_ne j i with rfl | hj
  · rw [wadd, hsame] at hcount
    split_ifs
    · simp only [called, Function.update_self]
      rw [hcount, Nat.mod_add_mod, Nat.add_assoc]
    · simp only [called, Function.update_self, Multiset.card_cons]
      rw [hcount, Nat.mod_add_mod, Nat.add_right_comm]
  · split_ifs
    · simpa only [called, Function.update_of_ne hj] using hsame
    · simpa only [called, Function.update_of_ne hj] using hsame

theorem objects_reuse (hptr : ptr ≠ 0) (hfree : (s.slabs i).freeList = slab.freeList ++ [ptr]) :
    ((s.called s.heap i slab).handOut i ptr).objects = s.objects := by
  have hall : s.objects i = ptr ::ₘ (s.held i + slab.freeList) := by
    rw [objects, hfree, ← Multiset.coe_add, ← add_assoc, Multiset.coe_singleton,
      ← Multiset.singleton_add, add_comm]
  rw [objects_handOut _ i hptr, objects_called, Function.update_self, Function.update_idem,
    ← hall, Function.update_eq_self]

theorem objects_fail (hfree : (s.slabs i).freeList = slab.freeList) :
    ((s.called heap i slab).handOut i 0).objects = s.objects := by
  rw [handOut, if_pos rfl]
  refine (objects_called s heap i slab).trans ?_
  rw [← hfree]
  exact Function.update_eq_self i s.objects

theorem objects_take (hptr : ptr ≠ 0) (hnil : (s.slabs i).freeList = [])
    (hnil' : slab.freeList = []) : ((s.called heap i slab).handOut i ptr).objects
      = Function.update s.objects i (ptr ::ₘ s.objects i) := by
  rw [objects_handOut _ i hptr, objects_called, Function.update_self, Function.update_idem,
    hnil', objects, hnil]

theorem Inv.reuse (h : s.Inv) (hsize : slab.objectSize = (s.slabs i).objectSize)
    (hcount : slab.inUse = wadd (s.slabs i).inUse 1)
    (hfree : (s.slabs i).freeList = slab.freeList ++ [ptr]) :
    ((s.called s.heap i slab).handOut i ptr).Inv := by
  have hmem : ptr ∈ s.objects i := by
    rw [objects, hfree, Multiset.mem_add]
    exact .inr (Multiset.mem_coe.mpr (List.mem_append_right _ (List.mem_singleton_self ptr)))
  have hptr : ptr ≠ 0 := h.ne_zero hmem
  have hobjects : ((s.called s.heap i slab).handOut i ptr).objects = s.objects :=
    objects_reuse hptr hfree
  refine ⟨?_, ?_, inUse_handOut h hcount ptr, fun j ↦ ?_⟩
  · rw [handOut, if_neg hptr]
    exact h.heap
  · rw [hobjects, handOut, if_neg hptr]
    exact (layout_called s.heap hsize).symm ▸ h.owned
  · rw [hobjects, h.most j, handOut, if_neg hptr]
    rcases eq_or_ne j i with rfl | hj
    · have hcard := h.most j
      rw [objects, hfree, Multiset.card_add, Multiset.coe_card, List.length_append,
        List.length_singleton] at hcard
      simp only [called, Function.update_self]
      omega
    · simp only [called, Function.update_of_ne hj]

theorem Inv.fail (h : s.Inv) (hsize : slab.objectSize = (s.slabs i).objectSize)
    (hcount : slab.inUse = wadd (s.slabs i).inUse 1)
    (hfree : (s.slabs i).freeList = slab.freeList) {layout : Layout}
    (hfar : s.heap.FarFromTop layout) (hstep : s.heap.step (.alloc layout) = some (0, heap)) :
    ((s.called heap i slab).handOut i 0).Inv := by
  have hobjects : ((s.called heap i slab).handOut i 0).objects = s.objects := objects_fail hfree
  have hcall : (heapSystem HeapSys.FarFromTop).step s.heap (.alloc layout) heap :=
    ⟨hfar, congrArg (Option.map Prod.snd) hstep⟩
  refine ⟨?_, ?_, inUse_handOut h hcount 0, fun j ↦ ?_⟩
  · rw [handOut, if_pos rfl]
    exact .step h.heap hcall
  · rw [hobjects, handOut, if_pos rfl]
    exact (layout_called heap hsize).symm ▸
      h.owned.step hstep fun _ _ _ _ ↦ trivial
  · rw [hobjects, h.most j, handOut, if_pos rfl]
    rfl

theorem Inv.take (h : s.Inv) (hsize : slab.objectSize = (s.slabs i).objectSize)
    (hcount : slab.inUse = wadd (s.slabs i).inUse 1) (hnil : (s.slabs i).freeList = [])
    (hnil' : slab.freeList = []) {layout : Layout} (hlayout : (s.slabs i).layout = some layout)
    (hfar : s.heap.FarFromTop layout) (hptr : ptr ≠ 0)
    (hstep : s.heap.step (.alloc layout) = some (ptr, heap)) :
    ((s.called heap i slab).handOut i ptr).Inv := by
  have hcall : (heapSystem HeapSys.FarFromTop).step s.heap (.alloc layout) heap :=
    ⟨hfar, congrArg (Option.map Prod.snd) hstep⟩
  have hreach : (heapSystem HeapSys.FarFromTop).Reachable heap := .step h.heap hcall
  obtain ⟨nodes, hinv⟩ :=
    HeapSys.inv_of_reachable (fun _ _ _ hinv hfar ↦ hinv.noWrap hfar) hreach
  have hlive : heap.live = ⟨ptr, layout⟩ ::ₘ s.heap.live := by
    obtain ⟨⟨p, w⟩, -, heq⟩ := Option.map_eq_some_iff.mp hstep
    obtain ⟨rfl, rfl⟩ := Prod.mk.inj heq
    exact if_neg hptr
  have hall : s.objects i = s.held i := by rw [objects, hnil, Multiset.coe_nil, add_zero]
  have hobjects : ((s.called heap i slab).handOut i ptr).objects
      = Function.update s.objects i (ptr ::ₘ s.objects i) := objects_take hptr hnil hnil'
  refine ⟨?_, ?_, inUse_handOut h hcount ptr, fun j ↦ ?_⟩
  · rw [handOut, if_neg hptr]
    exact hreach
  · rw [hobjects, handOut, if_neg hptr]
    exact (layout_called heap hsize).symm ▸ h.owned.take hinv hlayout hlive
  · rw [hobjects, handOut, if_neg hptr]
    rcases eq_or_ne j i with rfl | hj
    · have hmost := h.most j
      rw [hall] at hmost
      simp only [called, Function.update_self, Multiset.card_cons, hall]
      omega
    · simp only [called, Function.update_of_ne hj]
      exact h.most j

/-- The state when an object has been given back. -/
def given (s : SlabSys ι) (i : ι) (ptr : ℕ) : SlabSys ι :=
  { s with
    slabs := Function.update s.slabs i ((s.slabs i).free ptr)
    held := Function.update s.held i ((s.held i).erase ptr) }

theorem objects_given (hptr : ptr ∈ s.held i) : (s.given i ptr).objects = s.objects := by
  have hheld : ptr ::ₘ (s.held i).erase ptr = s.held i := Multiset.cons_erase hptr
  funext j
  rcases eq_or_ne j i with rfl | hj
  · simp only [objects, given, Function.update_self, SlabAllocator.free]
    rw [← Multiset.coe_add, Multiset.coe_singleton, ← add_assoc, add_right_comm,
      add_comm ((s.held j).erase ptr), Multiset.singleton_add, hheld]
  · simp only [objects, given, Function.update_of_ne hj]

theorem Inv.give (h : s.Inv) (hptr : ptr ∈ s.held i) : (s.given i ptr).Inv := by
  have hobjects : (s.given i ptr).objects = s.objects := objects_given hptr
  refine ⟨h.heap, ?_, fun j ↦ ?_, fun j ↦ ?_⟩
  · rw [hobjects]
    have hsize : ((s.slabs i).free ptr).objectSize = (s.slabs i).objectSize := rfl
    exact (layout_called s.heap hsize).symm ▸ h.owned
  · rcases eq_or_ne j i with rfl | hj
    · have hcount := h.inUse j
      rw [← Multiset.cons_erase hptr, Multiset.card_cons] at hcount
      simp only [given, Function.update_self, SlabAllocator.free]
      rw [wsub, hcount, wordSize]
      omega
    · simpa only [given, Function.update_of_ne hj] using h.inUse j
  · rw [hobjects]
    exact h.most j

theorem Inv.next (h : s.Inv) (hlegal : s.Legal call) (hnext : s.next call = some s') : s'.Inv := by
  cases call with
  | alloc i =>
    obtain ⟨⟨ptr, slab, heap⟩, halloc, rfl⟩ := Option.map_eq_some_iff.mp hnext
    obtain ⟨hsize, hcount, ⟨hfree, rfl⟩ | ⟨hnil, hnil', layout, hlayout, hstep⟩⟩ :=
      SlabAllocator.alloc_cases halloc
    · exact h.reuse hsize hcount hfree
    · have hfar := hlegal layout hlayout
      rcases eq_or_ne ptr 0 with rfl | hptr
      · exact h.fail hsize hcount (hnil.trans hnil'.symm) hfar hstep
      · exact h.take hsize hcount hnil hnil' hlayout hfar hptr hstep
  | free i ptr =>
    obtain rfl := Option.some.inj hnext
    exact h.give hlegal
  | heap call =>
    obtain ⟨⟨r, heap⟩, hstep, rfl⟩ := Option.map_eq_some_iff.mp hnext
    have hcall : (heapSystem HeapSys.FarFromTop).step s.heap call heap :=
      ⟨hlegal.1, congrArg (Option.map Prod.snd) hstep⟩
    have hspares : ∀ i, ∀ ptr ∈ s.objects i, ∀ layout, call.Spares ⟨ptr, layout⟩ :=
      fun i ptr hptr ↦ HeapCall.spares_of_freed (hlegal.2 i ptr hptr)
    exact ⟨.step h.heap hcall, h.owned.step hstep hspares, h.inUse, h.most⟩

theorem inv_of_reachable (hs : (machine (ι := ι)).system.Reachable s) : s.Inv := by
  refine hs.invariant (fun s ⟨hheap, hslabs, hheld, hfailed, hmost⟩ ↦ ?_)
    fun s call s' _ hinv hstep ↦ hinv.next hstep.1 hstep.2
  have hnone : s.objects = 0 := by
    funext i
    obtain ⟨size, hnew⟩ := hslabs i
    rw [objects, hheld, hnew]
    rfl
  refine ⟨.init hheap, ⟨fun i ptr hptr ↦ ?_, fun i ↦ ?_, fun i j _ ↦ ?_⟩, fun i ↦ ?_, fun i ↦ ?_⟩
  · rw [hnone] at hptr
    exact absurd hptr (Multiset.notMem_zero ptr)
  · rw [hnone]
    exact Multiset.nodup_zero
  · rw [hnone]
    exact Multiset.zero_disjoint _
  · obtain ⟨size, hnew⟩ := hslabs i
    rw [hnew, hheld, hfailed]
    rfl
  · rw [hnone, hmost]
    rfl

/-! ## The heap under the slabs -/

/-- A call of a slab is a request to the heap, or none; objects stay objects. -/
theorem next_cases (h : s.Inv) (hlegal : s.Legal call) (hnext : s.next call = some s') :
    (∀ i, s.objects i ≤ s'.objects i) ∧ (s'.heap = s.heap ∧ call.heapCall = none ∨
      ∃ c, (heapSystem HeapSys.FarFromTop).step s.heap c s'.heap ∧
        (∀ a, c.stored a = call.heapCall.bind (HeapCall.stored a)) ∧
        ∀ i, ∀ ptr ∈ s.objects i, ∀ layout, c.Spares ⟨ptr, layout⟩) := by
  cases call with
  | alloc i =>
    obtain ⟨⟨ptr, slab, heap⟩, halloc, rfl⟩ := Option.map_eq_some_iff.mp hnext
    have hheap : ((s.called heap i slab).handOut i ptr).heap = heap := by
      rw [handOut]
      split_ifs <;> rfl
    change (∀ j, s.objects j ≤ ((s.called heap i slab).handOut i ptr).objects j) ∧
      (((s.called heap i slab).handOut i ptr).heap = _ ∧ _ ∨
        ∃ c, (heapSystem _).step s.heap c ((s.called heap i slab).handOut i ptr).heap ∧ _)
    rw [hheap]
    obtain ⟨-, -, ⟨hfree, rfl⟩ | ⟨hnil, hnil', layout, hlayout, hstep⟩⟩ :=
      SlabAllocator.alloc_cases halloc
    · have hmem : ptr ∈ s.objects i := by
        rw [objects, hfree, Multiset.mem_add]
        exact .inr (Multiset.mem_coe.mpr (List.mem_append_right _ (List.mem_singleton_self ptr)))
      rw [objects_reuse (h.ne_zero hmem) hfree]
      exact ⟨fun _ ↦ le_rfl, .inl ⟨rfl, rfl⟩⟩
    · refine ⟨fun j ↦ ?_, .inr ⟨.alloc layout, ⟨hlegal layout hlayout,
        congrArg (Option.map Prod.snd) hstep⟩, fun _ ↦ rfl, fun _ _ _ _ ↦ trivial⟩⟩
      rcases eq_or_ne ptr 0 with rfl | hptr
      · rw [objects_fail (hnil.trans hnil'.symm)]
      · rw [objects_take hptr hnil hnil']
        rcases eq_or_ne j i with rfl | hj
        · rw [Function.update_self]
          exact Multiset.le_cons_self _ _
        · rw [Function.update_of_ne hj]
  | free i ptr =>
    obtain rfl := Option.some.inj hnext
    exact ⟨fun j ↦ (congrFun (objects_given hlegal) j).ge, .inl ⟨rfl, rfl⟩⟩
  | heap call =>
    obtain ⟨⟨r, heap⟩, hstep, rfl⟩ := Option.map_eq_some_iff.mp hnext
    exact ⟨fun _ ↦ le_rfl, .inr ⟨call, ⟨hlegal.1, congrArg (Option.map Prod.snd) hstep⟩,
      fun _ ↦ rfl, fun i ptr hptr ↦ HeapCall.spares_of_freed (hlegal.2 i ptr hptr)⟩⟩

/-- What clients do to the heap directly. -/
def heapCalls (calls : List (SlabCall ι)) : List HeapCall := calls.filterMap SlabCall.heapCall

omit [DecidableEq ι] in
theorem lastStored_heapCalls (a : ℕ) (calls : List (SlabCall ι)) (call : SlabCall ι) :
    lastStored a (heapCalls (calls ++ [call]))
      = (call.heapCall.bind (HeapCall.stored a)).or (lastStored a (heapCalls calls)) := by
  have hlast : heapCalls [call] = call.heapCall.toList := by
    cases call <;> rfl
  rw [heapCalls, List.filterMap_append, ← heapCalls, ← heapCalls, hlast]
  cases call.heapCall with
  | none => rw [Option.toList_none, List.append_nil, Option.bind_none, Option.none_or]
  | some c => rw [Option.toList_some, lastStored_concat, Option.bind_some]

/-- **A run of the slabs is a run of the heap**, in which no object is freed. -/
theorem exists_heapRun {l : List (SlabSys ι × SlabCall ι)} (h : s.Inv)
    (hrun : (machine (ι := ι)).system.Run s l t) :
    t.Inv ∧ (∀ i, s.objects i ≤ t.objects i) ∧
      ∃ l', (heapSystem HeapSys.FarFromTop).Run s.heap l' t.heap ∧
        (∀ i, ∀ ptr ∈ s.objects i, ∀ layout, ∀ p ∈ l', p.2.Spares ⟨ptr, layout⟩) ∧
        ∀ a, lastStored a (l'.map Prod.snd) = lastStored a (heapCalls (l.map Prod.snd)) := by
  induction hrun with
  | nil =>
    exact ⟨h, fun _ ↦ le_rfl, [], .nil, fun _ _ _ _ _ hp ↦ absurd hp List.not_mem_nil,
      fun _ ↦ rfl⟩
  | @snoc l u t call hrun hstep ih =>
    obtain ⟨hu, hle, l', hrun', hspares, hstored⟩ := ih
    obtain ⟨hle', hcases⟩ := next_cases hu hstep.1 hstep.2
    refine ⟨hu.next hstep.1 hstep.2, fun i ↦ (hle i).trans (hle' i), ?_⟩
    rcases hcases with ⟨hheap, hnone⟩ | ⟨c, hcall, hc, hsparesc⟩
    · refine ⟨l', hheap ▸ hrun', hspares, fun a ↦ ?_⟩
      rw [hstored, List.map_append, List.map_singleton, lastStored_heapCalls, hnone,
        Option.bind_none, Option.none_or]
    · refine ⟨l' ++ [(u.heap, c)], .snoc hrun' hcall, fun i ptr hptr layout p hp ↦ ?_, fun a ↦ ?_⟩
      · rcases List.mem_append.mp hp with hp | hp
        · exact hspares i ptr hptr layout p hp
        · rw [List.mem_singleton.mp hp]
          exact hsparesc i ptr (Multiset.mem_of_le (hle i) hptr) layout
      · rw [List.map_append, List.map_singleton, lastStored_concat, hstored, hc,
          List.map_append, List.map_singleton, lastStored_heapCalls]

end SlabSys

/-- **Slabs over the heap.** In every interleaving of slabs and of clients that call the heap
directly, all requests being far from the top: the objects of a slab, out or kept, are live blocks
of the heap of its size, no object is there twice, not even in two slabs, and the slab has taken as
many from the heap as were out at a time. Its counter is the objects that are out and the answers
that were null, modulo `2 ^ 64`. And whatever happens, a word of an object holds what a client last
stored in it. -/
theorem slab_objects {ι : Type*} [DecidableEq ι] {s : SlabSys ι}
    (hs : (SlabSys.machine (ι := ι)).system.Reachable s) :
    (∀ i, ∀ ptr ∈ s.objects i, ∃ layout, (s.slabs i).layout = some layout ∧
      (⟨ptr, layout⟩ : LiveBlock) ∈ s.heap.live) ∧
    (∀ i, (s.objects i).Nodup) ∧ (∀ i j, i ≠ j → Disjoint (s.objects i) (s.objects j)) ∧
    (∀ i, (s.objects i).card = s.most i) ∧
    (∀ i, (s.slabs i).inUse = ((s.held i).card + s.failed i) % wordSize) ∧
    ∀ l t, (SlabSys.machine (ι := ι)).system.Run s l t → ∀ i, ∀ ptr ∈ s.objects i,
      ptr ∈ t.objects i ∧ ∀ layout, (s.slabs i).layout = some layout →
        ∀ a, LiveBlock.Word ⟨ptr, layout⟩ a → t.heap.world.mem a
          = (lastStored a (SlabSys.heapCalls (l.map Prod.snd))).getD (s.heap.world.mem a) := by
  have hinv := SlabSys.inv_of_reachable hs
  refine ⟨hinv.owned.live, hinv.owned.nodup, hinv.owned.apart, hinv.most, hinv.inUse,
    fun l t hrun i ptr hptr ↦ ?_⟩
  obtain ⟨-, hle, l', hrun', hspares, hstored⟩ := SlabSys.exists_heapRun hinv hrun
  refine ⟨Multiset.mem_of_le (hle i) hptr, fun layout hlayout a ha ↦ ?_⟩
  obtain ⟨layout', hlayout', hlive⟩ := hinv.owned.live i ptr hptr
  obtain rfl : layout' = layout := Option.some.inj (hlayout'.symm.trans hlayout)
  obtain ⟨-, hmem⟩ := heap_keeps_contents hinv.heap hrun' hlive ha (hspares i ptr hptr layout')
  rw [hmem, hstored]

/-- Two slabs over a page. An object is written, given back, and handed out again after the other
slab has taken one behind it. -/
theorem slab_objects_reused :
    let M := SlabSys.machine (ι := Bool)
    let s₀ : SlabSys Bool := ⟨HeapSys.boot, fun i ↦ .new (if i then 24 else 100), 0, 0, 0⟩
    ∃ s t, M.run [.heap (.init 0x1000 0x1000), .alloc true] s₀ = some s ∧
      M.run [.heap (.store 0x1000 7), .free true 0x1000, .alloc false, .alloc true] s = some t ∧
      0x1000 ∈ t.objects true ∧ t.heap.world.mem 0x1000 = 7 := by
  intro M s₀
  let first : List (SlabCall Bool) := [.heap (.init 0x1000 0x1000), .alloc true]
  let rest : List (SlabCall Bool) :=
    [.heap (.store 0x1000 7), .free true 0x1000, .alloc false, .alloc true]
  let s := (M.run first s₀).get (by decide +kernel)
  let t := (M.run rest s).get (by decide +kernel)
  have hs : M.run first s₀ = some s := (Option.some_get _).symm
  have ht : M.run rest s = some t := (Option.some_get _).symm
  have hinit : M.init s₀ := ⟨⟨rfl, rfl, rfl⟩, fun i ↦ ⟨_, rfl⟩, rfl, rfl, rfl⟩
  obtain ⟨l, hrun, hcalls⟩ := Machine.exists_run ht
  obtain ⟨-, -, -, -, -, hkept⟩ := slab_objects (Machine.reachable_run (.init hinit) hs)
  obtain ⟨hobject, hmem⟩ := hkept l t hrun true 0x1000 (by decide +kernel)
  refine ⟨s, t, hs, ht, hobject, ?_⟩
  rw [hmem ⟨24, 8, ⟨3, rfl⟩, by decide⟩ (by decide +kernel) 0x1000 ⟨by decide, by decide +kernel⟩,
    hcalls]
  rfl

end Zeroxos
