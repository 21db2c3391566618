import Zeroxos.Library.Align
import Zeroxos.Library.Chain
import Zeroxos.Library.Span

/-!
# The kernel heap

`Heap` of the kernel: a first-fit allocator whose free list is threaded through the free memory
itself. A free block begins with its own header, a size and the address of the next block, so the
methods read and write the memory they manage and the model passes that memory along with the heap.

## Words and memory

Arithmetic is that of 64-bit machine words and wraps. Memory is given by its words, at the addresses
of their first bytes: every access is to a multiple of eight, so that no two words overlap. A
`Layout` carries what `core::alloc::Layout` promises, a power of two and a bound on the size, so
that no request without these can be stated.

## Divergence

A walk of the free list that has not ended after `2 ^ 64` nodes has met a node twice and never ends;
the walk is given that much fuel and answers `none` when it runs out, which is then exactly
divergence. That it does not happen is part of what is proved of a run.

## The fit test

The arithmetic of a request is settled here once: what `align_up` and `adjust_layout` compute, and
which blocks the comparison of the two possibly wrapped ends in `alloc_first_fit` takes (`fit_iff`).
-/

namespace Zeroxos

/-- `MIN_BLOCK`: the size of a `FreeBlock`. -/
def minBlock : ℕ := 16

/-- `MIN_ALIGN`: the alignment of a `FreeBlock`. -/
def minAlign : ℕ := 8

/-- The words of memory, by the address of their first byte. -/
abbrev Memory := ℕ → ℕ

/-- `FreeBlock`: the header of a free block. -/
structure FreeBlock where
  size : ℕ
  /-- The address of the next free block. -/
  next : Option ℕ
deriving DecidableEq, Repr

/-- A nullable pointer as Rust keeps it: `None` is the null word. -/
def ofPtr (p : ℕ) : Option ℕ := if p = 0 then none else some p

/-- The header at `p`: the size, then the link. -/
def readBlock (m : Memory) (p : ℕ) : FreeBlock := ⟨m p, ofPtr (m (p + 8))⟩

/-- Write a header at `p`. -/
def writeBlock (p : ℕ) (b : FreeBlock) (m : Memory) : Memory := fun a ↦
  if a = p then b.size else if a = p + 8 then b.next.getD 0 else m a

def alignUp (addr align : ℕ) : ℕ := wsub (wadd addr align) 1 &&& wnot (wsub align 1)

/-- `core::alloc::Layout`: the alignment is a power of two, and the size rounded up to it is at most
`isize::MAX`. -/
structure Layout where
  size : ℕ
  align : ℕ
  align_pow : ∃ k, align = 2 ^ k
  size_le : size + align ≤ 2 ^ 63
deriving DecidableEq

/-- A first-fit free-list heap. -/
structure Heap where
  head : FreeBlock
  total : ℕ
  allocated : ℕ
deriving DecidableEq, Repr

def Heap.empty : Heap := ⟨⟨0, none⟩, 0, 0⟩

/-- The heap, and the memory its free list lives in. -/
structure HeapMem where
  heap : Heap
  mem : Memory

namespace HeapMem

/-- `self.head.next = next`. -/
def setHead (next : Option ℕ) (w : HeapMem) : HeapMem :=
  { w with heap := { w.heap with head := { w.heap.head with next := next } } }

/-- `ptr::write(p, b)`. -/
def write (p : ℕ) (b : FreeBlock) (w : HeapMem) : HeapMem := { w with mem := writeBlock p b w.mem }

def addFreeRegion (addr size : ℕ) (w : HeapMem) : HeapMem :=
  let aligned := alignUp addr minAlign
  let adjust := wsub aligned addr
  if size < wadd adjust minBlock then w
  else
    let usable := wsub size adjust
    (w.write aligned ⟨usable, w.heap.head.next⟩).setHead (ofPtr aligned)

/-- `self.total = total`. -/
def setTotal (total : ℕ) (w : HeapMem) : HeapMem :=
  { w with heap := { w.heap with total := total } }

def init (start size : ℕ) (w : HeapMem) : HeapMem :=
  let w := w.addFreeRegion start size
  w.setTotal (wadd w.heap.total size)

def adjustLayout (layout : Layout) : ℕ × ℕ :=
  let align := max layout.align minAlign
  let size := alignUp (max layout.size minBlock) align
  (size, align)

/-- `(*prev).next`, where `prev` is the head or the block at an address. -/
def nextOf (w : HeapMem) : Option ℕ → Option ℕ
  | none => w.heap.head.next
  | some p => (readBlock w.mem p).next

/-- `(*prev).next = next`. -/
def setNext (next : Option ℕ) (w : HeapMem) : Option ℕ → HeapMem
  | none => w.setHead next
  | some p => w.write p { readBlock w.mem p with next := next }

/-- Take `region`, the block after `prev`, off the list. -/
def detach (prev : Option ℕ) (region : ℕ) (w : HeapMem) : HeapMem :=
  let next := (readBlock w.mem region).next
  (w.write region { readBlock w.mem region with next := none }).setNext next prev

/-- Padding or a tail becomes free again: `if n >= MIN_BLOCK { self.add_free_region(addr, n) }`. -/
def reclaim (addr n : ℕ) (w : HeapMem) : HeapMem :=
  if minBlock ≤ n then w.addFreeRegion addr n else w

/-- `self.allocated = allocated`. -/
def setAllocated (allocated : ℕ) (w : HeapMem) : HeapMem :=
  { w with heap := { w.heap with allocated := allocated } }

/-- Take `region` off the list and give back what `[allocStart, allocEnd)` leaves of it. -/
def carveRegion (prev : Option ℕ) (region allocStart allocEnd regionEnd : ℕ) (w : HeapMem) :
    HeapMem :=
  let frontPad := wsub allocStart region
  let tail := wsub regionEnd allocEnd
  ((w.detach prev region).reclaim region frontPad).reclaim allocEnd tail

/-- The body of the `if` in `alloc_first_fit`: the block at `region` fits. -/
def takeRegion (prev : Option ℕ) (region size align : ℕ) (w : HeapMem) : ℕ × HeapMem :=
  let regionEnd := wadd region (readBlock w.mem region).size
  let allocStart := alignUp region align
  let allocEnd := wadd allocStart size
  let w := w.carveRegion prev region allocStart allocEnd regionEnd
  (allocStart, w.setAllocated (wadd w.heap.allocated size))

/-- The loop of `alloc_first_fit`. -/
def allocLoop (size align : ℕ) (w : HeapMem) : ℕ → Option ℕ → Option (ℕ × HeapMem)
  | 0, _ => none
  | fuel + 1, prev =>
    match w.nextOf prev with
    | none => some (0, w)
    | some region =>
      if wadd (alignUp region align) size ≤ wadd region (readBlock w.mem region).size then
        some (w.takeRegion prev region size align)
      else allocLoop size align w fuel (some region)

/-- `Heap::alloc_first_fit`: the pointer, null when out of memory. -/
def allocFirstFit (layout : Layout) (w : HeapMem) : Option (ℕ × HeapMem) :=
  allocLoop (adjustLayout layout).1 (adjustLayout layout).2 w wordSize none

def dealloc (ptr : ℕ) (layout : Layout) (w : HeapMem) : HeapMem :=
  let w := w.addFreeRegion ptr (adjustLayout layout).1
  w.setAllocated (wsub w.heap.allocated (adjustLayout layout).1)

/-! ## The arithmetic of a request -/

theorem alignUp_two_pow {k : ℕ} (addr : ℕ) (hk : k ≤ 63) :
    alignUp addr (2 ^ k) = ceilAlign addr (2 ^ k) % wordSize := by
  have hpos : 0 < 2 ^ k := Nat.two_pow_pos k
  have hle : 2 ^ k ≤ 2 ^ 63 := Nat.pow_le_pow_right two_pos hk
  have hsum : wsub (wadd addr (2 ^ k)) 1 = (addr + 2 ^ k - 1) % wordSize := by
    rw [wsub, wadd, wordSize]
    omega
  rw [alignUp, hsum, wsub_of_le hpos (by rw [wordSize]; omega),
    and_wnot_two_pow_sub_one (Nat.mod_lt _ (by norm_num [wordSize])) (by omega),
    mod_wordSize_div_mul (by omega), ceilAlign]

/-- The alignment a request is served with: a power of two, at least 8, that the requested one
divides. -/
theorem adjustLayout_align (layout : Layout) : ∃ k, 3 ≤ k ∧ k ≤ 63 ∧
    (adjustLayout layout).2 = 2 ^ k ∧ layout.align ∣ (adjustLayout layout).2 := by
  obtain ⟨k, hk⟩ := layout.align_pow
  have hle : 2 ^ k ≤ 2 ^ 63 := hk ▸ (Nat.le_add_left _ _).trans layout.size_le
  have hmax : (adjustLayout layout).2 = 2 ^ max k 3 := by
    rw [adjustLayout, hk, minAlign]
    exact ((pow_right_mono₀ (one_le_two : 1 ≤ 2)).map_max (a := k) (b := 3)).symm
  have hk63 : k ≤ 63 := (Nat.pow_le_pow_iff_right (one_lt_two : 1 < 2)).mp hle
  refine ⟨max k 3, le_max_right k 3, max_le hk63 (by omega), hmax, ?_⟩
  rw [hmax, hk]
  exact pow_dvd_pow 2 (le_max_left k 3)

theorem adjustLayout_align_pos (layout : Layout) : 0 < (adjustLayout layout).2 := by
  obtain ⟨k, -, -, hk, -⟩ := adjustLayout_align layout
  exact hk ▸ Nat.two_pow_pos k

theorem adjustLayout_size (layout : Layout) : (adjustLayout layout).1
    = ceilAlign (max layout.size minBlock) (adjustLayout layout).2 ∧
    (adjustLayout layout).1 ≤ 2 ^ 63 := by
  obtain ⟨k, hk3, hk63, hk, -⟩ := adjustLayout_align layout
  have hsize := layout.size_le
  have hle : ceilAlign (max layout.size minBlock) (2 ^ k) ≤ 2 ^ 63 := by
    refine ceilAlign_le (Nat.two_pow_pos k) (pow_dvd_pow 2 hk63) ?_
    rw [minBlock]
    omega
  have halign : (adjustLayout layout).1
      = alignUp (max layout.size minBlock) (adjustLayout layout).2 := rfl
  rw [halign, hk, alignUp_two_pow _ hk63,
    Nat.mod_eq_of_lt (by rw [wordSize]; omega)]
  exact ⟨rfl, hle⟩

theorem minBlock_le_adjustLayout (layout : Layout) : minBlock ≤ (adjustLayout layout).1 := by
  obtain ⟨k, -, -, hk, -⟩ := adjustLayout_align layout
  rw [(adjustLayout_size layout).1, hk]
  exact (le_max_right _ _).trans (le_ceilAlign (Nat.two_pow_pos k))

end HeapMem

/-! ## Which blocks are taken -/

/-- The request has room in the block, in exact arithmetic. -/
def Span.Fits (size align : ℕ) (nd : Span) : Prop :=
  ceilAlign nd.base align + size ≤ nd.base + nd.len

/-- The end of the request, computed from this block, passes the top of the address space. The end
of a block that reaches the very top is itself `0` as a word, and no wrapped end is below it. -/
def Span.Wraps (size align : ℕ) (nd : Span) : Prop :=
  nd.base + nd.len < wordSize ∧ wordSize ≤ ceilAlign nd.base align + size

/-- The block is taken and has room: a block that reaches the very top is taken for an exact fit
only. -/
def Span.Serves (size align : ℕ) (nd : Span) : Prop :=
  nd.Fits size align ∧
    (nd.base + nd.len < wordSize ∨ ceilAlign nd.base align + size = nd.base + nd.len)

section Decidable

variable (size align : ℕ) (nd : Span)

instance : Decidable (nd.Fits size align) := inferInstanceAs (Decidable (_ ≤ _))

instance : Decidable (nd.Wraps size align) := inferInstanceAs (Decidable (_ ∧ _))

instance : Decidable (nd.Serves size align) := inferInstanceAs (Decidable (_ ∧ _))

end Decidable

variable {size k : ℕ} {nd : Span}

/-- **The fit test.** The comparison in `alloc_first_fit` takes a block when the request has room in
it, and also whenever the end of the request wraps. -/
theorem fit_iff (hend : nd.base + nd.len ≤ wordSize) (hlen : 0 < nd.len) (hk : k ≤ 63)
    (hpos : 0 < size) (hsize : size ≤ 2 ^ 63) :
    wadd (alignUp nd.base (2 ^ k)) size ≤ wadd nd.base nd.len ↔
      nd.Serves size (2 ^ k) ∨ nd.Wraps size (2 ^ k) := by
  have hbase : nd.base < wordSize := by omega
  have hlt := ceilAlign_lt (a := nd.base) (Nat.two_pow_pos k)
  have hle : 2 ^ k ≤ 2 ^ 63 := Nat.pow_le_pow_right two_pos hk
  rw [HeapMem.alignUp_two_pow _ hk, Span.Serves, Span.Fits, Span.Wraps, wadd, wadd, wordSize] at *
  omega

end Zeroxos
