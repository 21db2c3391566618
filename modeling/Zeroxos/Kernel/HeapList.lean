import Zeroxos.Kernel.Heap
import Zeroxos.Library.Cover

/-!
# The free list in memory

`FreeList` says that the free list threaded through memory is a given list of spans. The pointer
edits of the heap are specified here by what they do to that list, and nothing after this module
looks at a pointer again: `add_free_region` puts a span in front, `detach` takes one out, a store
outside the spans does nothing, and `alloc_first_fit` replaces the first span that serves the
request by what is left of it.

## Headers

A header is read back after a write to another block because the blocks are apart and each has room
for a header (`FreeSpans`); this is the one place where that is needed.

## Serving a request

What becomes of a block that serves a request does not depend on memory: `carve` lists the spans
that come back, in the order in which they are put in front of the list, and `freed` leaves out
those that have no room for a header. Loss of bytes is a fact about `carve` alone.
-/

namespace Zeroxos

/-- A list of spans that can hold a header each and do not overlap. -/
structure FreeSpans (nodes : List Span) : Prop where
  pos : ∀ nd ∈ nodes, 0 < nd.base
  minBlock_le : ∀ nd ∈ nodes, minBlock ≤ nd.len
  apart : nodes.Pairwise (Span.Apart 0)

variable {m : Memory} {w : HeapMem} {nodes pre post : List Span} {nd c : Span} {p q : ℕ}
  {b : FreeBlock}

/-! ## Headers -/

theorem ofPtr_ne_zero (p : ℕ) : ofPtr p ≠ some 0 := by
  rw [ofPtr]
  split_ifs with h
  · simp
  · simpa using h

theorem ofPtr_of_pos (h : 0 < p) : ofPtr p = some p := if_neg h.ne'

theorem readBlock_writeBlock (hb : b.next ≠ some 0) : readBlock (writeBlock p b m) p = b := by
  obtain ⟨size, next⟩ := b
  have hnext : ofPtr (next.getD 0) = next := by
    cases next with
    | none => rfl
    | some q => exact ofPtr_of_pos (Nat.pos_of_ne_zero fun h ↦ hb (congrArg some h))
  simp [readBlock, writeBlock, hnext]

theorem readBlock_writeBlock_of_apart (h : q + minBlock ≤ p ∨ p + minBlock ≤ q) :
    readBlock (writeBlock p b m) q = readBlock m q := by
  rw [minBlock] at h
  have h₁ : q ≠ p := by omega
  have h₂ : q ≠ p + 8 := by omega
  have h₃ : q + 8 ≠ p := by omega
  have h₄ : q + 8 ≠ p + 8 := by omega
  rw [readBlock, readBlock, writeBlock, writeBlock, if_neg h₁, if_neg h₂, if_neg h₃, if_neg h₄]

theorem Span.Apart.headers (h : nd.Apart 0 c) (hnd : minBlock ≤ nd.len) (hc : minBlock ≤ c.len) :
    nd.base + minBlock ≤ c.base ∨ c.base + minBlock ≤ nd.base := by
  unfold Span.Apart at h
  rw [minBlock] at *
  omega

namespace FreeSpans

theorem perm {nodes' : List Span} (h : FreeSpans nodes) (hp : nodes.Perm nodes') :
    FreeSpans nodes' where
  pos nd hnd := h.pos nd (hp.mem_iff.mpr hnd)
  minBlock_le nd hnd := h.minBlock_le nd (hp.mem_iff.mpr hnd)
  apart := (hp.pairwise_iff fun hab ↦ hab.symm).mp h.apart

theorem of_cons (h : FreeSpans (nd :: nodes)) : FreeSpans nodes where
  pos c hc := h.pos c (List.mem_cons_of_mem nd hc)
  minBlock_le c hc := h.minBlock_le c (List.mem_cons_of_mem nd hc)
  apart := h.apart.of_cons

theorem header_apart (h : FreeSpans (nd :: nodes)) (hc : c ∈ nodes) :
    nd.base + minBlock ≤ c.base ∨ c.base + minBlock ≤ nd.base :=
  ((List.pairwise_cons.mp h.apart).1 c hc).headers (h.minBlock_le nd List.mem_cons_self)
    (h.minBlock_le c (List.mem_cons_of_mem nd hc))

end FreeSpans

namespace HeapMem

/-- The link of the block at an address. -/
def link (m : Memory) (p : ℕ) : Option ℕ := (readBlock m p).next

/-- The free list in memory is `nodes`. -/
structure FreeList (w : HeapMem) (nodes : List Span) : Prop where
  chain : Chain (link w.mem) w.heap.head.next (nodes.map Span.base)
  size : ∀ nd ∈ nodes, (readBlock w.mem nd.base).size = nd.len

namespace FreeList

/-- The list is determined by the memory. -/
theorem unique {nodes' : List Span} (h : w.FreeList nodes) (h' : w.FreeList nodes') :
    nodes = nodes' := by
  have hmap : ∀ {l : List Span}, (∀ nd ∈ l, (readBlock w.mem nd.base).size = nd.len) →
      l = (l.map Span.base).map fun p ↦ ⟨p, (readBlock w.mem p).size⟩ := by
    intro l hl
    rw [List.map_map]
    refine (List.map_id'' (fun _ ↦ rfl) l).symm.trans (List.map_congr_left fun nd hnd ↦ ?_)
    rw [Function.comp_apply, hl nd hnd]
  rw [hmap h.size, hmap h'.size, h.chain.unique h'.chain]

theorem head_ne (h : w.FreeList nodes) (hpos : ∀ nd ∈ nodes, 0 < nd.base) :
    w.heap.head.next ≠ some 0 := by
  cases nodes with
  | nil => rw [Chain.nil_iff.mp h.chain]; simp
  | cons nd nodes =>
    rw [(Chain.cons_iff.mp h.chain).1, Ne, Option.some_inj]
    exact (hpos nd List.mem_cons_self).ne'

/-- **Frame.** Memory that agrees on the headers holds the same list. -/
theorem congr {m' : Memory} (h : w.FreeList nodes)
    (heq : ∀ nd ∈ nodes, readBlock m' nd.base = readBlock w.mem nd.base) :
    FreeList { w with mem := m' } nodes where
  chain := by
    refine h.chain.congr fun p hp ↦ ?_
    obtain ⟨nd, hnd, rfl⟩ := List.mem_map.mp hp
    rw [link, link, heq nd hnd]
  size nd hnd := by rw [heq nd hnd, h.size nd hnd]

theorem cons (h : w.FreeList nodes) (hw : FreeSpans (nd :: nodes)) :
    ((w.write nd.base ⟨nd.len, w.heap.head.next⟩).setHead (some nd.base)).FreeList
      (nd :: nodes) := by
  have hhead := h.head_ne fun c hc ↦ hw.pos c (List.mem_cons_of_mem nd hc)
  have hself : readBlock (writeBlock nd.base ⟨nd.len, w.heap.head.next⟩ w.mem) nd.base
      = ⟨nd.len, w.heap.head.next⟩ := readBlock_writeBlock hhead
  have hother : ∀ c ∈ nodes, readBlock (writeBlock nd.base ⟨nd.len, w.heap.head.next⟩ w.mem) c.base
      = readBlock w.mem c.base := fun c hc ↦
    readBlock_writeBlock_of_apart (hw.header_apart hc).symm
  have hlink : link (writeBlock nd.base ⟨nd.len, w.heap.head.next⟩ w.mem) nd.base
      = w.heap.head.next := by rw [link, hself]
  refine ⟨?_, fun c hc ↦ ?_⟩
  · rw [List.map_cons]
    refine h.chain.cons hlink fun p hp ↦ ?_
    obtain ⟨c, hc, rfl⟩ := List.mem_map.mp hp
    exact congrArg FreeBlock.next (hother c hc)
  · rcases List.mem_cons.mp hc with rfl | hc
    · exact congrArg FreeBlock.size hself
    · exact (congrArg FreeBlock.size (hother c hc)).trans (h.size c hc)

theorem detach (h : w.FreeList (pre ++ nd :: post)) (hw : FreeSpans (pre ++ nd :: post)) :
    (w.detach (pre.getLast?.map Span.base) nd.base).FreeList (pre ++ post) := by
  have hnd : ∀ c ∈ pre ++ post,
      c.base + minBlock ≤ nd.base ∨ nd.base + minBlock ≤ c.base := fun c hc ↦
    ((hw.perm List.perm_middle).header_apart hc).symm
  rcases List.eq_nil_or_concat pre with rfl | ⟨pre, c, rfl⟩
  · -- the head points at the block
    have hread : ∀ d ∈ post, readBlock (writeBlock nd.base
        { readBlock w.mem nd.base with next := none } w.mem) d.base = readBlock w.mem d.base :=
      fun d hd ↦ readBlock_writeBlock_of_apart (hnd d hd)
    refine FreeList.congr (w := w.setHead (link w.mem nd.base)) ⟨?_, fun d hd ↦ ?_⟩ hread
    · exact (Chain.cons_iff.mp h.chain).2
    · exact h.size d (List.mem_cons_of_mem nd hd)
  · -- the block `c` points at it
    rw [List.concat_eq_append] at *
    rw [List.getLast?_concat, Option.map_some]
    have hc : ∀ d ∈ pre ++ post, d.base + minBlock ≤ c.base ∨ c.base + minBlock ≤ d.base := by
      intro d hd
      rw [List.append_assoc, List.singleton_append] at hw
      refine ((hw.perm List.perm_middle).header_apart ?_).symm
      exact List.mem_append.mpr ((List.mem_append.mp hd).imp_right (List.mem_cons_of_mem nd))
    set m₁ := writeBlock nd.base { readBlock w.mem nd.base with next := none } w.mem with hm₁
    set m₂ := writeBlock c.base { readBlock m₁ c.base with next := link w.mem nd.base } m₁ with hm₂
    have hread₁ : ∀ d ∈ (pre ++ [c]) ++ post, readBlock m₁ d.base = readBlock w.mem d.base :=
      fun d hd ↦ readBlock_writeBlock_of_apart (hnd d hd)
    have hreadc : readBlock m₂ c.base
        = { readBlock w.mem c.base with next := link w.mem nd.base } := by
      rw [hm₂, readBlock_writeBlock (ofPtr_ne_zero _), hread₁ c (by simp)]
    have hlink : link m₂ c.base = link w.mem nd.base := by
      show (readBlock m₂ c.base).next = _
      rw [hreadc]
    have hread₂ : ∀ d ∈ pre ++ post, readBlock m₂ d.base = readBlock w.mem d.base := by
      intro d hd
      rw [hm₂, readBlock_writeBlock_of_apart (hc d hd), hread₁ d]
      rw [List.append_assoc]
      exact List.mem_append.mpr ((List.mem_append.mp hd).imp_right (List.mem_cons_of_mem c))
    have hw₂ : w.detach (some c.base) nd.base = { w with mem := m₂ } := rfl
    rw [hw₂]
    refine ⟨?_, fun d hd ↦ ?_⟩
    · have hchain := h.chain
      rw [List.append_assoc, List.singleton_append, List.map_append, List.map_cons,
        List.map_cons] at hchain
      rw [List.append_assoc, List.singleton_append, List.map_append, List.map_cons]
      refine hchain.unlink hlink fun p hp ↦ ?_
      rw [← List.map_append] at hp
      obtain ⟨d, hd, rfl⟩ := List.mem_map.mp hp
      exact congrArg FreeBlock.next (hread₂ d hd)
    · have hsize := h.size d (by simp only [List.mem_append, List.mem_cons] at hd ⊢; tauto)
      rw [List.append_assoc, List.singleton_append] at hd
      rcases List.mem_cons.mp (List.perm_middle.mem_iff.mp hd) with rfl | hd
      · rw [hreadc, hsize]
      · rw [hread₂ d hd, hsize]

end FreeList

end HeapMem

/-! ## Putting memory back -/

/-- What `add_free_region` makes of `n` bytes at `addr`: the part from the first aligned address on,
unless it is too small to hold a header. -/
def freed (addr n : ℕ) : List Span :=
  if ceilAlign addr minAlign + minBlock ≤ addr + n then
    [⟨ceilAlign addr minAlign, addr + n - ceilAlign addr minAlign⟩]
  else []

variable {addr n : ℕ}

theorem freed_eq_nil (h : n < minBlock) : freed addr n = [] := by
  have := le_ceilAlign (a := addr) (n := minAlign) (by norm_num [minAlign])
  exact if_neg (by omega)

theorem of_mem_freed (h : nd ∈ freed addr n) :
    nd.Within ⟨addr, n⟩ ∧ minAlign ∣ nd.base ∧ minBlock ≤ nd.len := by
  rw [freed] at h
  split_ifs at h with hroom
  · rw [List.mem_singleton] at h
    subst h
    have := le_ceilAlign (a := addr) (n := minAlign) (by norm_num [minAlign])
    refine ⟨⟨this, ?_⟩, dvd_ceilAlign addr minAlign, ?_⟩ <;> dsimp only <;> omega
  · exact absurd h List.not_mem_nil

theorem cover_freed_le (addr n : ℕ) :
    cover Span.cells (freed addr n) ≤ (⟨addr, n⟩ : Span).cells.val := by
  rw [freed]
  split_ifs with hroom
  · rw [← Multiset.cons_coe, Multiset.coe_nil, cover_cons, cover_zero, add_zero,
      Finset.val_le_iff]
    refine Span.Within.cells_subset ⟨le_ceilAlign (by norm_num [minAlign]), ?_⟩
    dsimp only
    omega
  · exact Multiset.zero_le _

theorem FreeSpans.freed_append (hw : FreeSpans nodes) (hpos : 0 < addr)
    (hapart : ∀ c ∈ nodes, Span.Apart 0 ⟨addr, n⟩ c) : FreeSpans (freed addr n ++ nodes) := by
  refine ⟨fun c hc ↦ ?_, fun c hc ↦ ?_, List.pairwise_append.mpr ⟨?_, hw.apart, ?_⟩⟩
  · rcases List.mem_append.mp hc with hc | hc
    · exact hpos.trans_le (of_mem_freed hc).1.1
    · exact hw.pos c hc
  · rcases List.mem_append.mp hc with hc | hc
    · exact (of_mem_freed hc).2.2
    · exact hw.minBlock_le c hc
  · rw [freed]
    split_ifs <;> simp
  · exact fun c hc d hd ↦ (hapart d hd).of_within_left (of_mem_freed hc).1

namespace HeapMem

theorem addFreeRegion_eq (w : HeapMem) (hpos : 0 < addr) (hend : addr + n ≤ wordSize) :
    w.addFreeRegion addr n = if ceilAlign addr minAlign + minBlock ≤ addr + n then
      (w.write (ceilAlign addr minAlign)
        ⟨addr + n - ceilAlign addr minAlign, w.heap.head.next⟩).setHead
          (some (ceilAlign addr minAlign))
      else w := by
  have hle : addr ≤ ceilAlign addr minAlign := le_ceilAlign (by norm_num [minAlign])
  have hlt : ceilAlign addr minAlign < addr + minAlign := ceilAlign_lt (by norm_num [minAlign])
  have halign : alignUp addr minAlign = ceilAlign addr minAlign % wordSize :=
    alignUp_two_pow (k := 3) addr (by omega)
  have hadjust : wsub (alignUp addr minAlign) addr = ceilAlign addr minAlign - addr := by
    rw [halign, wsub, wordSize, minAlign] at *
    omega
  have hroom : wadd (ceilAlign addr minAlign - addr) minBlock
      = ceilAlign addr minAlign - addr + minBlock := wadd_of_lt (by
    rw [minBlock, wordSize, minAlign] at *
    omega)
  rw [addFreeRegion, hadjust]
  dsimp only
  rw [hroom]
  by_cases h : ceilAlign addr minAlign + minBlock ≤ addr + n
  · have hmod : alignUp addr minAlign = ceilAlign addr minAlign := by
      rw [halign, Nat.mod_eq_of_lt (by rw [minBlock] at h; omega)]
    have husable : wsub n (ceilAlign addr minAlign - addr)
        = addr + n - ceilAlign addr minAlign := by
      rw [wsub_of_le (by omega) (by omega)]
      omega
    rw [if_pos h, if_neg (by omega), hmod, husable, ofPtr_of_pos (by omega)]
  · rw [if_neg h, if_pos (by omega)]

/-- **`add_free_region`** on the list. -/
theorem FreeList.addFreeRegion (h : w.FreeList nodes) (hw : FreeSpans nodes) (hpos : 0 < addr)
    (hend : addr + n ≤ wordSize) (hapart : ∀ c ∈ nodes, Span.Apart 0 ⟨addr, n⟩ c) :
    (w.addFreeRegion addr n).FreeList (freed addr n ++ nodes) := by
  have hfreed := hw.freed_append hpos hapart
  rw [addFreeRegion_eq w hpos hend]
  rw [freed] at hfreed ⊢
  split_ifs at hfreed ⊢ with hroom
  · exact h.cons hfreed
  · exact h

/-- Padding and tails are put back when they can hold a header, which is no restriction. -/
theorem FreeList.reclaim (h : w.FreeList nodes) (hw : FreeSpans nodes)
    (hpos : minBlock ≤ n → 0 < addr) (hend : minBlock ≤ n → addr + n ≤ wordSize)
    (hapart : minBlock ≤ n → ∀ c ∈ nodes, Span.Apart 0 ⟨addr, n⟩ c) :
    (w.reclaim addr n).FreeList (freed addr n ++ nodes) := by
  rw [HeapMem.reclaim]
  split_ifs with hn
  · exact h.addFreeRegion hw (hpos hn) (hend hn) (hapart hn)
  · rw [freed_eq_nil (not_le.mp hn)]
    exact h

/-! ## Counters -/

theorem addFreeRegion_cases (addr n : ℕ) (w : HeapMem) : w.addFreeRegion addr n = w ∨
    ∃ p b next, w.addFreeRegion addr n = (w.write p b).setHead next := by
  by_cases h : n < wadd (wsub (alignUp addr minAlign) addr) minBlock
  · exact .inl (if_pos h)
  · exact .inr ⟨_, _, _, if_neg h⟩

@[simp] theorem addFreeRegion_allocated (addr n : ℕ) (w : HeapMem) :
    (w.addFreeRegion addr n).heap.allocated = w.heap.allocated := by
  rcases addFreeRegion_cases addr n w with h | ⟨p, b, next, h⟩
  · rw [h]
  · rw [h]
    rfl

@[simp] theorem addFreeRegion_total (addr n : ℕ) (w : HeapMem) :
    (w.addFreeRegion addr n).heap.total = w.heap.total := by
  rcases addFreeRegion_cases addr n w with h | ⟨p, b, next, h⟩
  · rw [h]
  · rw [h]
    rfl

theorem reclaim_cases (addr n : ℕ) (w : HeapMem) : w.reclaim addr n = w ∨
    w.reclaim addr n = w.addFreeRegion addr n := by
  rw [reclaim]
  split_ifs
  · exact .inr rfl
  · exact .inl rfl

@[simp] theorem reclaim_allocated (addr n : ℕ) (w : HeapMem) :
    (w.reclaim addr n).heap.allocated = w.heap.allocated := by
  rcases reclaim_cases addr n w with h | h <;> simp [h]

@[simp] theorem reclaim_total (addr n : ℕ) (w : HeapMem) :
    (w.reclaim addr n).heap.total = w.heap.total := by
  rcases reclaim_cases addr n w with h | h <;> simp [h]

@[simp] theorem detach_allocated (prev : Option ℕ) (region : ℕ) (w : HeapMem) :
    (w.detach prev region).heap.allocated = w.heap.allocated := by
  cases prev <;> rfl

@[simp] theorem detach_total (prev : Option ℕ) (region : ℕ) (w : HeapMem) :
    (w.detach prev region).heap.total = w.heap.total := by
  cases prev <;> rfl

@[simp] theorem setAllocated_allocated (a : ℕ) (w : HeapMem) :
    (w.setAllocated a).heap.allocated = a := rfl

@[simp] theorem setAllocated_total (a : ℕ) (w : HeapMem) :
    (w.setAllocated a).heap.total = w.heap.total := rfl

@[simp] theorem setTotal_allocated (t : ℕ) (w : HeapMem) :
    (w.setTotal t).heap.allocated = w.heap.allocated := rfl

@[simp] theorem setTotal_total (t : ℕ) (w : HeapMem) : (w.setTotal t).heap.total = t := rfl

theorem FreeList.setTotal (h : w.FreeList nodes) (t : ℕ) : (w.setTotal t).FreeList nodes :=
  ⟨h.chain, h.size⟩

theorem FreeList.setAllocated (h : w.FreeList nodes) (a : ℕ) : (w.setAllocated a).FreeList nodes :=
  ⟨h.chain, h.size⟩

theorem init_eq (start size : ℕ) (w : HeapMem) : w.init start size
    = (w.addFreeRegion start size).setTotal (wadd w.heap.total size) := by
  show (w.addFreeRegion start size).setTotal (wadd (w.addFreeRegion start size).heap.total size) = _
  rw [addFreeRegion_total]

theorem dealloc_eq (ptr : ℕ) (layout : Layout) (w : HeapMem) : w.dealloc ptr layout
    = (w.addFreeRegion ptr (adjustLayout layout).1).setAllocated
      (wsub w.heap.allocated (adjustLayout layout).1) := by
  show (w.addFreeRegion ptr (adjustLayout layout).1).setAllocated
    (wsub (w.addFreeRegion ptr (adjustLayout layout).1).heap.allocated (adjustLayout layout).1) = _
  rw [addFreeRegion_allocated]

@[simp] theorem carveRegion_allocated (prev : Option ℕ) (region a e r : ℕ) (w : HeapMem) :
    (w.carveRegion prev region a e r).heap.allocated = w.heap.allocated := by
  rw [carveRegion, reclaim_allocated, reclaim_allocated, detach_allocated]

@[simp] theorem carveRegion_total (prev : Option ℕ) (region a e r : ℕ) (w : HeapMem) :
    (w.carveRegion prev region a e r).heap.total = w.heap.total := by
  rw [carveRegion, reclaim_total, reclaim_total, detach_total]

theorem takeRegion_eq (prev : Option ℕ) (region size align : ℕ) (w : HeapMem) :
    w.takeRegion prev region size align = (alignUp region align,
      (w.carveRegion prev region (alignUp region align) (wadd (alignUp region align) size)
        (wadd region (readBlock w.mem region).size)).setAllocated
          (wadd w.heap.allocated size)) := by
  rw [takeRegion, carveRegion_allocated]

/-! ## Serving a request -/

/-- What is left of a span that serves a request. -/
def carve (size align : ℕ) (nd : Span) : List Span :=
  freed (ceilAlign nd.base align + size) (nd.base + nd.len - (ceilAlign nd.base align + size)) ++
    freed nd.base (ceilAlign nd.base align - nd.base)

/-- **The first fit, cut.** The block is taken off the list, and its padding and tail are put
back. -/
theorem FreeList.takeRegion {size align k : ℕ} (h : w.FreeList (pre ++ nd :: post))
    (hw : FreeSpans (pre ++ nd :: post)) (hend : nd.base + nd.len ≤ wordSize) (hk : k ≤ 63)
    (halign : align = 2 ^ k) (hpos : 0 < size) (hserves : nd.Serves size align) :
    ∃ w', w.takeRegion (pre.getLast?.map Span.base) nd.base size align
        = (ceilAlign nd.base align, w') ∧
      w'.FreeList (carve size align nd ++ (pre ++ post)) ∧
      w'.heap.allocated = wadd w.heap.allocated size ∧ w'.heap.total = w.heap.total := by
  subst halign
  have hfits : ceilAlign nd.base (2 ^ k) + size ≤ nd.base + nd.len := hserves.1
  have hcons := hw.perm List.perm_middle
  have hbase : 0 < nd.base := hcons.pos nd List.mem_cons_self
  have hle := le_ceilAlign (a := nd.base) (Nat.two_pow_pos k)
  -- the words the source computes, in exact arithmetic
  have hstart : alignUp nd.base (2 ^ k) = ceilAlign nd.base (2 ^ k) := by
    rw [alignUp_two_pow _ hk, Nat.mod_eq_of_lt (by omega)]
  have hpad : wsub (ceilAlign nd.base (2 ^ k)) nd.base = ceilAlign nd.base (2 ^ k) - nd.base :=
    wsub_of_le hle (by omega)
  have htail : wsub (wadd nd.base nd.len) (wadd (ceilAlign nd.base (2 ^ k)) size)
      = nd.base + nd.len - (ceilAlign nd.base (2 ^ k) + size) := by
    have := hserves.2
    rw [wsub, wadd, wadd, wordSize] at *
    omega
  have hread : (readBlock w.mem nd.base).size = nd.len := h.size nd (by simp)
  refine ⟨(w.carveRegion (pre.getLast?.map Span.base) nd.base (ceilAlign nd.base (2 ^ k))
      (wadd (ceilAlign nd.base (2 ^ k)) size) (wadd nd.base nd.len)).setAllocated
        (wadd w.heap.allocated size),
    by rw [takeRegion_eq, hstart, hread], FreeList.setAllocated ?_ _, rfl, ?_⟩
  · have hapart := (List.pairwise_cons.mp hcons.apart).1
    -- both pieces lie in the span taken, and the others are apart from it
    have hpadApart : ∀ c ∈ pre ++ post,
        Span.Apart 0 ⟨nd.base, ceilAlign nd.base (2 ^ k) - nd.base⟩ c := fun c hc ↦
      (hapart c hc).of_within_left ⟨le_rfl, by dsimp only; omega⟩
    have htailApart : ∀ c ∈ freed nd.base (ceilAlign nd.base (2 ^ k) - nd.base) ++ (pre ++ post),
        Span.Apart 0 ⟨ceilAlign nd.base (2 ^ k) + size,
          nd.base + nd.len - (ceilAlign nd.base (2 ^ k) + size)⟩ c := by
      intro c hc
      rcases List.mem_append.mp hc with hc | hc
      · obtain ⟨hlo, hhi⟩ := (of_mem_freed hc).1
        unfold Span.Apart
        dsimp only at *
        omega
      · refine (hapart c hc).of_within_left ⟨?_, ?_⟩ <;> dsimp only <;> omega
    rw [carveRegion, hpad, htail, carve, List.append_assoc]
    have hpadded := (h.detach hw).reclaim hcons.of_cons (fun _ ↦ hbase) (fun _ ↦ by omega)
      fun _ ↦ hpadApart
    by_cases hroom : minBlock ≤ nd.base + nd.len - (ceilAlign nd.base (2 ^ k) + size)
    · have hend' : wadd (ceilAlign nd.base (2 ^ k)) size = ceilAlign nd.base (2 ^ k) + size :=
        wadd_of_lt (by rw [minBlock] at hroom; omega)
      rw [hend']
      exact hpadded.reclaim (hcons.of_cons.freed_append hbase hpadApart) (fun _ ↦ by omega)
        (fun _ ↦ by omega) fun _ ↦ htailApart
    · rw [HeapMem.reclaim, if_neg hroom, freed_eq_nil (not_le.mp hroom)]
      exact hpadded
  · rw [setAllocated_total, carveRegion_total]

/-! ## The walk -/

/-- The fit test of `alloc_first_fit`. -/
def Taken (size align : ℕ) (nd : Span) : Prop :=
  wadd (alignUp nd.base align) size ≤ wadd nd.base nd.len

/-- **The loop of `alloc_first_fit`.** With enough fuel for the list it stops at the first block
that passes the test, knowing the block before it, or finds none. -/
theorem allocLoop_spec (size align fuel : ℕ) (prev : Option ℕ)
    (hchain : Chain (link w.mem) (w.nextOf prev) (nodes.map Span.base))
    (hsize : ∀ nd ∈ nodes, (readBlock w.mem nd.base).size = nd.len) (hfuel : nodes.length < fuel) :
    ((∀ nd ∈ nodes, ¬Taken size align nd) ∧ w.allocLoop size align fuel prev = some (0, w)) ∨
    ∃ pre nd post, nodes = pre ++ nd :: post ∧ (∀ c ∈ pre, ¬Taken size align c) ∧
      Taken size align nd ∧ w.allocLoop size align fuel prev
        = some (w.takeRegion ((pre.getLast?.map Span.base).or prev) nd.base size align) := by
  induction nodes generalizing fuel prev with
  | nil =>
    obtain ⟨fuel, rfl⟩ := Nat.exists_eq_add_of_lt hfuel
    refine .inl ⟨fun _ h ↦ absurd h List.not_mem_nil, ?_⟩
    rw [allocLoop, Chain.nil_iff.mp hchain]
  | cons nd nodes ih =>
    obtain ⟨fuel, rfl⟩ : ∃ f, fuel = f + 1 := ⟨fuel - 1, by omega⟩
    obtain ⟨hnext, hrest⟩ := Chain.cons_iff.mp hchain
    rw [allocLoop, hnext]
    dsimp only
    rw [hsize nd List.mem_cons_self]
    by_cases htaken : Taken size align nd
    · refine .inr ⟨[], nd, nodes, rfl, fun _ h ↦ absurd h List.not_mem_nil, htaken, ?_⟩
      exact if_pos htaken
    · -- not taken: the block becomes the one before the next
      have hloop : ∀ x : Option (ℕ × HeapMem), (if wadd (alignUp nd.base align) size
          ≤ wadd nd.base nd.len then x else w.allocLoop size align fuel (some nd.base))
          = w.allocLoop size align fuel (some nd.base) := fun _ ↦ if_neg htaken
      rw [hloop]
      rcases ih fuel (some nd.base) hrest (fun c hc ↦ hsize c (List.mem_cons_of_mem nd hc))
        (Nat.lt_of_succ_lt_succ hfuel) with ⟨hnone, h⟩ | ⟨pre, c, post, rfl, hpre, hc, h⟩
      · exact .inl ⟨List.forall_mem_cons.mpr ⟨htaken, hnone⟩, h⟩
      · refine .inr ⟨nd :: pre, c, post, rfl, List.forall_mem_cons.mpr ⟨htaken, hpre⟩, hc, ?_⟩
        rw [h]
        rcases List.eq_nil_or_concat pre with rfl | ⟨pre, d, rfl⟩
        · rfl
        · rw [List.concat_eq_append, ← List.cons_append, List.getLast?_concat,
            List.getLast?_concat]
          rfl

end HeapMem

/-- Disjoint spans of the address space are fewer than its words. -/
theorem FreeSpans.length_lt (h : FreeSpans nodes)
    (hend : ∀ nd ∈ nodes, nd.base + nd.len ≤ wordSize) :
    nodes.length < wordSize := by
  have hnodup : ((nodes.map Span.base : List ℕ) : Multiset ℕ).Nodup := by
    refine Multiset.coe_nodup.mpr (List.pairwise_map.mpr ?_)
    refine h.apart.imp_of_mem fun {a b} ha hb hab ↦ ?_
    have hlen := h.minBlock_le a ha
    have hlen' := h.minBlock_le b hb
    unfold Span.Apart at hab
    rw [minBlock] at hlen hlen'
    omega
  have hcard := card_le_of_nodup 1 wordSize hnodup fun p hp ↦ by
    obtain ⟨nd, hnd, rfl⟩ := List.mem_map.mp (Multiset.mem_coe.mp hp)
    have hpos := h.pos nd hnd
    have hlen := h.minBlock_le nd hnd
    have := hend nd hnd
    rw [minBlock] at hlen
    omega
  rw [Multiset.coe_card, List.length_map] at hcard
  have : 0 < wordSize := by norm_num [wordSize]
  omega

namespace HeapMem

/-- **`alloc_first_fit`** answers null and changes nothing, or takes the first block in the list
that serves the request or wraps. -/
theorem FreeList.allocFirstFit (layout : Layout) (h : w.FreeList nodes) (hw : FreeSpans nodes)
    (hend : ∀ nd ∈ nodes, nd.base + nd.len ≤ wordSize) :
    ((∀ nd ∈ nodes, ¬(nd.Serves (adjustLayout layout).1 (adjustLayout layout).2 ∨
        nd.Wraps (adjustLayout layout).1 (adjustLayout layout).2)) ∧
      w.allocFirstFit layout = some (0, w)) ∨
    ∃ pre nd post, nodes = pre ++ nd :: post ∧
      (∀ c ∈ pre, ¬c.Serves (adjustLayout layout).1 (adjustLayout layout).2) ∧
      (nd.Serves (adjustLayout layout).1 (adjustLayout layout).2 ∨
        nd.Wraps (adjustLayout layout).1 (adjustLayout layout).2) ∧
      w.allocFirstFit layout = some (w.takeRegion (pre.getLast?.map Span.base) nd.base
        (adjustLayout layout).1 (adjustLayout layout).2) := by
  obtain ⟨k, -, hk, halign, -⟩ := adjustLayout_align layout
  have hpos : 0 < (adjustLayout layout).1 :=
    (by norm_num [minBlock] : 0 < minBlock).trans_le (minBlock_le_adjustLayout layout)
  have htaken : ∀ nd ∈ nodes, Taken (adjustLayout layout).1 (adjustLayout layout).2 nd ↔
      nd.Serves (adjustLayout layout).1 (adjustLayout layout).2 ∨
        nd.Wraps (adjustLayout layout).1 (adjustLayout layout).2 := by
    intro nd hnd
    have hlen := hw.minBlock_le nd hnd
    rw [minBlock] at hlen
    rw [halign]
    exact fit_iff (hend nd hnd) (by omega) hk hpos (adjustLayout_size layout).2
  rcases allocLoop_spec (adjustLayout layout).1 (adjustLayout layout).2 wordSize none h.chain
    h.size (hw.length_lt hend) with ⟨hnone, heq⟩ | ⟨pre, nd, post, rfl, hpre, hnd, heq⟩
  · exact .inl ⟨fun nd hnd ↦ (htaken nd hnd).not.mp (hnone nd hnd), heq⟩
  · refine .inr ⟨pre, nd, post, rfl, fun c hc hserves ↦ ?_, (htaken nd (by simp)).mp hnd, ?_⟩
    · exact hpre c hc ((htaken c (List.mem_append_left _ hc)).mpr (.inl hserves))
    · rw [HeapMem.allocFirstFit, heq, Option.or_none]

end HeapMem

end Zeroxos
