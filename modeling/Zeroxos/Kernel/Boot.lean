import Zeroxos.Kernel.Driver
import Zeroxos.Kernel.Ipc
import Zeroxos.Kernel.MemoryManager
import Zeroxos.Kernel.Process
import Zeroxos.Kernel.Scheduler

/-!
# Booting the kernel

`Kernel::boot` brings the subsystems up in order. After `MemoryManager::init` it asks for the number
of pages and fails when there are none, but by then there always are: `init` makes up 256 MB when it
finds no page registered.

## The condition

What is registered before the boot is rounded to pages, region by region, and counted in a word. The
pages are made up exactly when that count is zero: because no region holds a page, or because the
sum of the counts wraps to zero. So the boot does what is meant, succeeding with the registered
pages and failing without any, exactly when pages were counted (`boot_iff_counted`). Nothing is
asked of the regions but that they are words; they may overlap.
-/

namespace Zeroxos

open Block BuddyAllocator MemoryManager

inductive KernelError
  | memoryInit
  | outOfMemory
  | schedulerInit
  | notBooted
  | permissionDenied
  | unsupported
deriving DecidableEq, Repr

structure Kernel where
  scheduler : Scheduler
  memory : MemoryManager
  ipc : IpcCore
  security : SecurityManager
  process : ProcessTable
  drivers : DriverRegistry
  booted : Bool
  bootTimeNs : ℕ
deriving DecidableEq

namespace Kernel

def new : Kernel where
  scheduler := .new
  memory := .new
  ipc := .new
  security := .new
  process := .new
  drivers := .new
  booted := false
  bootTimeNs := 0

/-- `Kernel::boot`; `nowNs` is what the timer reads. The `init` of the scheduler, of the security
manager and of the IPC core only write to the log. -/
def boot (nowNs : ℕ) (k : Kernel) (st : Statics) :
    Except Panic (Except KernelError Unit × Kernel × Statics) :=
  if k.booted then .ok (.ok (), k, st)
  else
    (k.memory.init st).map fun (memory, st) ↦
      let k := { k with bootTimeNs := nowNs, memory := memory }
      if k.memory.buddy.totalPages = 0 then (.error .memoryInit, k, st)
      else (.ok (), { k with drivers := k.drivers.init, booted := true }, st)

/-- The calls of `register_region` before the boot, in order, each with its `base` and `len`. -/
def registerRegions : List (ℕ × ℕ) → Kernel → Except Panic Kernel
  | [], k => .ok k
  | (base, len) :: regions, k =>
    (k.memory.registerRegion base len).bind fun memory ↦
      registerRegions regions { k with memory := memory }

/-- The whole pages a region gives, counted from the page its base is in. -/
def regionPages (region : ℕ × ℕ) : Span := ⟨region.1 / pageSize, region.2 / pageSize⟩

/-- The number of pages registered. -/
def pageCount (regions : List (ℕ × ℕ)) : ℕ := (regions.map fun r ↦ (regionPages r).len).sum

/-- The pages registered, each as often as it was. -/
def registeredPages (regions : List (ℕ × ℕ)) : Multiset ℕ :=
  (regions.map fun r ↦ (regionPages r).cells.val).sum

/-- **A boot as it should be**: it fails without registered pages, and otherwise succeeds with these
pages free. Either way every page that is free afterwards was registered. -/
def BootsOn (regions : List (ℕ × ℕ)) (result : Except KernelError Unit) (k : Kernel) : Prop :=
  (if pageCount regions = 0 then result = .error .memoryInit ∧ k.booted = false
    else result = .ok () ∧ cover cells k.memory.buddy.freeBlocks = registeredPages regions) ∧
  ∀ b ∈ k.memory.buddy.freeBlocks, ∀ p ∈ b.cells, p ∈ registeredPages regions

/-! ## What is registered -/

variable {k k' : Kernel} {region : ℕ × ℕ} {regions : List (ℕ × ℕ)} {st : Statics}

theorem card_registeredPages : (registeredPages regions).card = pageCount regions := by
  induction regions with
  | nil => rfl
  | cons r regions ih =>
    rw [registeredPages, pageCount, List.map_cons, List.map_cons, List.sum_cons, List.sum_cons,
      Multiset.card_add, ← Span.card_cells]
    exact congrArg _ ih

/-- What the pages registered have to do with the allocator. -/
structure Holds (pages : Multiset ℕ) (b : BuddyAllocator) : Prop where
  aligned : ∀ c ∈ b.freeBlocks, c.Aligned
  cover : cover cells b.freeBlocks = pages
  totalPages : b.totalPages = pages.card % wordSize

theorem holds_new : Holds 0 BuddyAllocator.new where
  aligned := by simp
  cover := by simp
  totalPages := rfl

theorem Holds.addRegion {pages : Multiset ℕ} {b : BuddyAllocator} {start pageCount : ℕ}
    (h : Holds pages b) (hword : start + pageCount < wordSize) :
    ∃ b', addRegion start pageCount b = .ok b' ∧
      Holds (pages + (Span.cells ⟨start, pageCount⟩).val) b' := by
  obtain ⟨b', hadd, haligned, hcover, htotal, -⟩ := BuddySys.addRegion_spec h.aligned hword
  refine ⟨b', hadd, haligned, by rw [hcover, h.cover], ?_⟩
  rw [htotal, h.totalPages, wadd, Nat.mod_add_mod, Multiset.card_add, Finset.card_val,
    Span.card_cells]

theorem Holds.registerRegion {pages : Multiset ℕ} (h : Holds pages k.memory.buddy)
    (hbase : region.1 < wordSize) (hlen : region.2 < wordSize) :
    ∃ m, k.memory.registerRegion region.1 region.2 = .ok m ∧
      Holds (pages + (regionPages region).cells.val) m.buddy := by
  rw [MemoryManager.registerRegion]
  by_cases hpages : 0 < region.2 / pageSize
  · rw [if_pos hpages]
    have hword : region.1 / pageSize + region.2 / pageSize < wordSize := by
      rw [wordSize, pageSize] at *
      omega
    obtain ⟨b, hadd, hholds⟩ := h.addRegion hword
    rw [hadd]
    exact ⟨_, rfl, hholds⟩
  · rw [if_neg hpages]
    have hnone : (regionPages region).cells = ∅ := by
      rw [← Finset.card_eq_zero, Span.card_cells]
      exact Nat.eq_zero_of_not_pos hpages
    refine ⟨_, rfl, ?_⟩
    rw [hnone, Finset.empty_val, add_zero]
    exact h

theorem registerRegions_ok {pages : Multiset ℕ} (h : Holds pages k.memory.buddy)
    (hregions : ∀ r ∈ regions, r.1 < wordSize ∧ r.2 < wordSize) :
    ∃ m, registerRegions regions k = .ok { k with memory := m } ∧
      Holds (pages + registeredPages regions) m.buddy := by
  induction regions generalizing k pages with
  | nil => exact ⟨k.memory, rfl, (add_zero pages).symm ▸ h⟩
  | cons region regions ih =>
    obtain ⟨hbase, hlen⟩ := hregions region List.mem_cons_self
    obtain ⟨m, hregister, hm⟩ := h.registerRegion hbase hlen
    have hih := ih (k := { k with memory := m }) hm
      fun r hr ↦ hregions r (List.mem_cons_of_mem _ hr)
    obtain ⟨m', hregisters, hm'⟩ := hih
    refine ⟨m', ?_, ?_⟩
    · rw [registerRegions, hregister]
      exact hregisters
    · rw [add_assoc] at hm'
      exact hm'

/-! ## What the boot makes of it -/

/-- The pages `init` makes up. -/
def madeUp : Span := ⟨0, fakePages⟩

theorem card_madeUp : madeUp.cells.card = 65536 := by
  rw [Span.card_cells]
  rfl

theorem boot_of_init {m : MemoryManager} {st' : Statics} (hbooted : k.booted = false)
    (hinit : k.memory.init st = .ok (m, st')) (hm : m.buddy.totalPages ≠ 0) (nowNs : ℕ) :
    k.boot nowNs st = .ok (.ok (),
      { k with memory := m, bootTimeNs := nowNs, drivers := k.drivers.init, booted := true },
        st') := by
  rw [boot, hbooted, if_neg Bool.false_ne_true, hinit]
  show Except.ok (if m.buddy.totalPages = 0 then _ else _) = _
  rw [if_neg hm]

/-- With pages counted, they are what there is. -/
theorem boot_of_counted {pages : Multiset ℕ} (hbooted : k.booted = false)
    (h : Holds pages k.memory.buddy) (hcount : pages.card % wordSize ≠ 0) (nowNs : ℕ)
    (st : Statics) :
    ∃ k' st', k.boot nowNs st = .ok (.ok (), k', st') ∧ Holds pages k'.memory.buddy := by
  rw [← h.totalPages] at hcount
  obtain ⟨st', hinit⟩ : ∃ st', k.memory.init st = .ok (k.memory, st') := by
    rw [MemoryManager.init, if_neg hcount]
    exact ⟨_, rfl⟩
  exact ⟨_, st', boot_of_init hbooted hinit hcount nowNs, h⟩

/-- Without, the pages made up are there as well, and their number is not zero. -/
theorem boot_of_not_counted {pages : Multiset ℕ} (hbooted : k.booted = false)
    (h : Holds pages k.memory.buddy) (hcount : pages.card % wordSize = 0) (nowNs : ℕ)
    (st : Statics) :
    ∃ k' st', k.boot nowNs st = .ok (.ok (), k', st') ∧
      Holds (pages + madeUp.cells.val) k'.memory.buddy := by
  have hword : 0 + fakePages < wordSize := by norm_num [fakePages, pageSize, wordSize]
  obtain ⟨b, hadd, hholds⟩ := h.addRegion hword
  have htotal : b.totalPages ≠ 0 := by
    rw [hholds.totalPages, Multiset.card_add, Nat.add_mod, hcount, Finset.card_val,
      show (Span.cells ⟨0, fakePages⟩).card = 65536 from card_madeUp]
    norm_num [wordSize]
  rw [← h.totalPages] at hcount
  obtain ⟨st', hinit⟩ : ∃ st', k.memory.init st = .ok ({ k.memory with buddy := b }, st') := by
    rw [MemoryManager.init, if_pos hcount, hadd]
    exact ⟨_, rfl⟩
  exact ⟨_, st', boot_of_init hbooted hinit htotal nowNs, hholds⟩

theorem bootsOn_of_holds {result : Except KernelError Unit}
    (h : Holds (registeredPages regions) k.memory.buddy)
    (hresult : if pageCount regions = 0 then result = .error .memoryInit ∧ k.booted = false
      else result = .ok ()) : BootsOn regions result k := by
  refine ⟨?_, fun b hb p hp ↦ h.cover ▸ mem_cover.mpr ⟨b, hb, hp⟩⟩
  split_ifs at hresult ⊢
  · exact hresult
  · exact ⟨hresult, h.cover⟩

theorem not_bootsOn (h : Holds (registeredPages regions + madeUp.cells.val) k.memory.buddy) :
    ¬ BootsOn regions (.ok ()) k := by
  rintro ⟨hresult, -⟩
  split_ifs at hresult
  · cases hresult.1
  · have hcard := congrArg Multiset.card (h.cover.symm.trans hresult.2)
    rw [Multiset.card_add, Finset.card_val, card_madeUp] at hcard
    omega

/-- **A boot goes as it should** exactly when the number of pages registered is not zero as a word.
With none registered it does not fail, as `init` makes pages up first. -/
theorem boot_iff_counted (hregions : ∀ r ∈ regions, r.1 < wordSize ∧ r.2 < wordSize)
    (nowNs : ℕ) (st : Statics) :
    (∃ k result k' st', registerRegions regions new = .ok k ∧
      k.boot nowNs st = .ok (result, k', st') ∧ BootsOn regions result k') ↔
    pageCount regions % wordSize ≠ 0 := by
  obtain ⟨m, hregisters, hm⟩ := registerRegions_ok (k := new) holds_new hregions
  rw [zero_add] at hm
  constructor
  · rintro ⟨k, result, k', st', hk, hboot, hboots⟩ hcount
    obtain rfl := Except.ok.inj (hregisters.symm.trans hk)
    rw [← card_registeredPages] at hcount
    obtain ⟨k'', st'', hboot', hholds⟩ :=
      boot_of_not_counted (k := { new with memory := m }) rfl hm hcount nowNs st
    rw [hboot'] at hboot
    cases hboot
    exact not_bootsOn hholds hboots
  · intro hcount
    have hne : pageCount regions ≠ 0 := fun h ↦ hcount (by rw [h, Nat.zero_mod])
    rw [← card_registeredPages] at hcount
    obtain ⟨k', st', hboot, hholds⟩ :=
      boot_of_counted (k := { new with memory := m }) rfl hm hcount nowNs st
    refine ⟨_, _, k', st', hregisters, hboot, bootsOn_of_holds hholds ?_⟩
    rw [if_neg hne]

/-- One region of two pages and one that is too short for a page. -/
theorem boot_iff_counted_two_pages : ∃ k result k' st',
    registerRegions [(4096, 8192), (65536, 100)] new = .ok k ∧
      k.boot 7 {} = .ok (result, k', st') ∧ BootsOn [(4096, 8192), (65536, 100)] result k' := by
  have hregions : ∀ r ∈ [(4096, 8192), (65536, 100)], r.1 < wordSize ∧ r.2 < wordSize := by
    norm_num [wordSize]
  exact (boot_iff_counted hregions 7 {}).mpr (by decide)

/-- Nothing was registered, and the boot succeeds. -/
theorem boot_without_memory : ¬ ∃ k result k' st', registerRegions [] new = .ok k ∧
    k.boot 7 {} = .ok (result, k', st') ∧ BootsOn [] result k' := by
  rintro ⟨k, result, k', st', hk, hboot, hresult, -⟩
  cases hk
  obtain ⟨k'', st'', hboot', -⟩ :=
    boot_of_not_counted (k := new) rfl holds_new rfl 7 {}
  rw [hboot'] at hboot
  cases hboot
  cases hresult.1

end Kernel

end Zeroxos
