import Mathlib.Algebra.CharZero.Defs
import Mathlib.Algebra.Order.Ring.Nat
import Mathlib.Data.Fin.VecNotation
import Mathlib.Tactic.Common

/-!
# x86_64 page tables

The four-level page-table walker of the HAL. A table is 512 entries of 64 bits, found at its
physical address through the `PhysMapper`; the model's physical memory is that lookup, a table for
each address.

## The allocator

Fresh tables come from a `FrameAllocator`, which the walker knows as a trait only: here it is an
arbitrary state machine, and its one promise, that a frame it hands out is zeroed, is carried out on
the memory at the call. What else is needed of the frames, that they are frames, are not in use and
do not come twice, is a hypothesis where it is needed.

## The walks

`map_page_in`, `translate_in` and `unmap_page_in` descend three levels in a loop and then look at
the leaf. The loops are recursions along the indices still to be followed. Flushing an address from
the translation buffer is left to `map_page` and `unmap_page`, which call the walker.
-/

namespace Zeroxos

/-! ## Entries -/

def ptePresent : BitVec 64 := 1 <<< 0

def pteWritable : BitVec 64 := 1 <<< 1

def pteUser : BitVec 64 := 1 <<< 2

def pteWriteThrough : BitVec 64 := 1 <<< 3

def pteCacheDisable : BitVec 64 := 1 <<< 4

/-- `PTE_HUGE`: the PS bit, which maps a 2 MiB or 1 GiB page. -/
def pteHuge : BitVec 64 := 1 <<< 7

def pteGlobal : BitVec 64 := 1 <<< 8

def pteNoExecute : BitVec 64 := 1 <<< 63

/-- `PTE_ADDR_MASK`: the frame address in an entry, bits 12 to 51. -/
def pteAddrMask : BitVec 64 := 0x000FFFFFFFFFF000

/-- `PageFlags`, the portable flags. -/
abbrev PageFlags := BitVec 32

namespace PageFlags

def read : PageFlags := 1 <<< 0
def write : PageFlags := 1 <<< 1
def exec : PageFlags := 1 <<< 2
def user : PageFlags := 1 <<< 3
def writeThrough : PageFlags := 1 <<< 4
def cacheDisable : PageFlags := 1 <<< 5
def global : PageFlags := 1 <<< 6

def contains (flags other : PageFlags) : Bool := flags &&& other == other

end PageFlags

def pteFlagsFrom (flags : PageFlags) : BitVec 64 :=
  let bits := ptePresent
  let bits := if flags.contains .write then bits ||| pteWritable else bits
  let bits := if flags.contains .user then bits ||| pteUser else bits
  let bits := if flags.contains .writeThrough then bits ||| pteWriteThrough else bits
  let bits := if flags.contains .cacheDisable then bits ||| pteCacheDisable else bits
  let bits := if flags.contains .global then bits ||| pteGlobal else bits
  if !flags.contains .exec then bits ||| pteNoExecute else bits

/-! ## Virtual addresses -/

/-- `(virt >> shift) & 0x1FF`. -/
def tableIndex (virt : BitVec 64) (shift : ℕ) : Fin 512 :=
  ⟨(virt >>> shift &&& 0x1FF#64).toNat, by
    rw [BitVec.toNat_and]
    exact Nat.lt_of_le_of_lt Nat.and_le_right (by decide)⟩

/-- `virt_to_indices`: the indices into the PML4, the PDPT, the PD and the PT. -/
def virtToIndices (virt : BitVec 64) : Fin 4 → Fin 512 :=
  ![tableIndex virt 39, tableIndex virt 30, tableIndex virt 21, tableIndex virt 12]

/-- The indices that lead to the page table of an address. -/
def tablePath (virt : BitVec 64) : List (Fin 512) :=
  [virtToIndices virt 0, virtToIndices virt 1, virtToIndices virt 2]

def pageOffset (virt : BitVec 64) : BitVec 64 := virt &&& 0xFFF

/-! ## Tables and frames -/

/-- One page table. -/
structure PageTable where
  entries : Fin 512 → BitVec 64

def PageTable.empty : PageTable := ⟨fun _ ↦ 0⟩

/-- `PhysMapper::table_at`: the table at a physical address. -/
abbrev PhysMem := BitVec 64 → PageTable

/-- `table.entries[i] = e`, for the table at `table`. -/
def PhysMem.setEntry (m : PhysMem) (table : BitVec 64) (i : Fin 512) (e : BitVec 64) : PhysMem :=
  Function.update m table ⟨Function.update (m table).entries i e⟩

/-- The frame at `frame`, zeroed. -/
def PhysMem.zero (m : PhysMem) (frame : BitVec 64) : PhysMem :=
  Function.update m frame PageTable.empty

/-- `FrameAllocator`, over the states of some implementation. -/
structure FrameAllocator (σ : Type*) where
  /-- `alloc_zeroed`: a frame, or none when out of frames. -/
  allocZeroed : σ → Option (BitVec 64) × σ
  /-- `free`. -/
  free : BitVec 64 → σ → σ

inductive MapError
  | outOfFrames
  | alreadyMapped
  | hugePagePresent
deriving DecidableEq, Repr

/-! ## The walks -/

section Walks

variable {σ : Type*} (A : FrameAllocator σ)

/-- The loop of `map_page_in`: descend along the indices, making the tables that are missing. -/
def mapLoop : List (Fin 512) → BitVec 64 → PhysMem → σ →
    Except MapError (BitVec 64) × PhysMem × σ
  | [], table, m, a => (.ok table, m, a)
  | i :: is, table, m, a =>
    let entry := (m table).entries i
    if entry &&& ptePresent = 0 then
      match A.allocZeroed a with
      | (none, a) => (.error .outOfFrames, m, a)
      | (some new, a) =>
        mapLoop is new
          ((m.zero new).setEntry table i (new ||| ptePresent ||| pteWritable ||| pteUser)) a
    else if entry &&& pteHuge ≠ 0 then (.error .hugePagePresent, m, a)
    else mapLoop is (entry &&& pteAddrMask) m a

def mapPageIn (root virt phys : BitVec 64) (flags : PageFlags) (m : PhysMem) (a : σ) :
    Except MapError Unit × PhysMem × σ :=
  let idx := virtToIndices virt
  match mapLoop A [idx 0, idx 1, idx 2] root m a with
  | (.error e, m, a) => (.error e, m, a)
  | (.ok pt, m, a) =>
    if (m pt).entries (idx 3) &&& ptePresent ≠ 0 then (.error .alreadyMapped, m, a)
    else (.ok (), m.setEntry pt (idx 3) (phys &&& pteAddrMask ||| pteFlagsFrom flags), a)

/-- The loop of `translate_in`, from `level` on: either the walk ends early with an answer, or it
arrives at a page table. -/
def translateLoop (virt : BitVec 64) (m : PhysMem) :
    ℕ → List (Fin 512) → BitVec 64 → Except (Option (BitVec 64)) (BitVec 64)
  | _, [], table => .ok table
  | level, i :: is, table =>
    let entry := (m table).entries i
    if entry &&& ptePresent = 0 then .error none
    else if entry &&& pteHuge ≠ 0 then
      let size := (1 : BitVec 64) <<< (39 - 9 * level)
      .error (some ((entry &&& pteAddrMask) + (virt &&& (size - 1))))
    else translateLoop virt m (level + 1) is (entry &&& pteAddrMask)

def translateIn (root virt : BitVec 64) (m : PhysMem) : Option (BitVec 64) :=
  let idx := virtToIndices virt
  match translateLoop virt m 0 [idx 0, idx 1, idx 2] root with
  | .error r => r
  | .ok pt =>
    let leaf := (m pt).entries (idx 3)
    if leaf &&& ptePresent = 0 then none
    else some (leaf &&& pteAddrMask ||| pageOffset virt)

/-- The loop of `unmap_page_in`. -/
def unmapLoop (m : PhysMem) : List (Fin 512) → BitVec 64 → Option (BitVec 64)
  | [], table => some table
  | i :: is, table =>
    let entry := (m table).entries i
    if entry &&& ptePresent = 0 ∨ entry &&& pteHuge ≠ 0 then none
    else unmapLoop m is (entry &&& pteAddrMask)

def unmapPageIn (root virt : BitVec 64) (m : PhysMem) : Option (BitVec 64) × PhysMem :=
  let idx := virtToIndices virt
  match unmapLoop m [idx 0, idx 1, idx 2] root with
  | none => (none, m)
  | some pt =>
    let leaf := (m pt).entries (idx 3)
    if leaf &&& ptePresent = 0 then (none, m)
    else (some (leaf &&& pteAddrMask), m.setEntry pt (idx 3) 0)

end Walks

/-! ## The entries a walk reads -/

/-- The PML4 entry of an address. -/
def pml4Entry (m : PhysMem) (root virt : BitVec 64) : BitVec 64 :=
  (m root).entries (virtToIndices virt 0)

/-- The PDPT entry of an address. -/
def pdptEntry (m : PhysMem) (root virt : BitVec 64) : BitVec 64 :=
  (m (pml4Entry m root virt &&& pteAddrMask)).entries (virtToIndices virt 1)

/-- The PD entry of an address. -/
def pdEntry (m : PhysMem) (root virt : BitVec 64) : BitVec 64 :=
  (m (pdptEntry m root virt &&& pteAddrMask)).entries (virtToIndices virt 2)

end Zeroxos
