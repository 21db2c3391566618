import Zeroxos.Hal.PagingShared
import Zeroxos.Kernel.FrameHook
import Zeroxos.Library.LookupCache

/-!
# Address spaces

Several processors, each with a PML4 of its own in CR3, one physical memory and one memory manager.
`map_page` and `unmap_page` work on the tables that CR3 points to, take the frames for new tables
from the buddy allocator through the frame hook, and flush the page they changed from the buffer of
the processor they run on. Meanwhile clients allocate and free frames of the same allocator and
write into the frames they own, and the processors walk their tables whenever they like and remember
what they find.

## The results

* An address space is what was asked for: an access, answered by the buffer or by a walk, finds the
  frame and the permissions the page was last mapped with (`address_space_refines`).
* The frames are private: a page table is a frame of the allocator that is neither free nor owned by
  a client, and no table belongs to two address spaces. So no store of a client and no call for one
  address space changes a translation of another (`page_tables_private`).

## The invariant

The walker is verified with an arbitrary set of frames that it must not be given (`Guards`), and
the frames of the other address spaces are put into that set (`Guards.beside`). What a call for one
address space writes is then off the tables of the others, and their walks are as they were
(`Tables.congr`).
-/

namespace Zeroxos

open Block BuddyAllocator

/-! ## The calls of the HAL -/

/-- `read_cr3`, with what CR3 holds. -/
def readCr3 (cr3 : BitVec 64) : BitVec 64 := cr3 &&& pteAddrMask

/-- The PML4s of the processors. -/
abbrev roots {ι : Type*} (cr3 : ι → BitVec 64) (i : ι) : BitVec 64 := readCr3 (cr3 i)

/-- The translations the processor remembers, by page number. -/
abbrev Tlb := BitVec 64 → Option (BitVec 64 × Perms)

def flushTlb (virt : BitVec 64) (tlb : Tlb) : Tlb := Function.update tlb (pageOf virt) none

/-- The walker's model zeroes a new table itself, so `GlobalFrames` is given bytes that nobody
looks at. -/
def noBytes : ByteMem := fun _ ↦ 0

/-- `GlobalFrames`, over the memory manager behind the hooks. A panic in a hook is final. -/
def kernelFrames (base : Word) : FrameAllocator (Except Panic (MemoryManager × Statics)) where
  allocZeroed
    | .error e => (none, .error e)
    | .ok s =>
      match GlobalFrames.allocZeroed (some allocFrame) base s noBytes with
      | .error e => (none, .error e)
      | .ok (phys, s, _) => (phys.map (BitVec.ofNat 64), .ok s)
  free
    | _, .error e => .error e
    | phys, .ok s => GlobalFrames.free (some freeFrame) phys.toNat s

/-- `map_page`, and the answer of the walker, which the code drops. -/
def mapPage (cr3 base virt phys : BitVec 64) (flags : PageFlags) (mem : PhysMem)
    (k : Except Panic (MemoryManager × Statics)) (tlb : Tlb) :
    Except MapError Unit × PhysMem × Except Panic (MemoryManager × Statics) × Tlb :=
  let (r, mem, k) := mapPageIn (kernelFrames base) (readCr3 cr3) virt phys flags mem k
  (r, mem, k, flushTlb virt tlb)

def unmapPage (cr3 virt : BitVec 64) (mem : PhysMem) (tlb : Tlb) : PhysMem × Tlb :=
  ((unmapPageIn (readCr3 cr3) virt mem).2, flushTlb virt tlb)

/-! ## The system -/

/-- What can happen: a client calls the memory manager or writes a page it owns, the kernel maps or
unmaps a page on some processor, and a processor uses an address or forgets a translation. -/
inductive SpaceCall (ι : Type*)
  | memory (call : MemCall)
  | store (page : PageFrame) (content : PageTable)
  | mapPage (i : ι) (virt phys : BitVec 64) (flags : PageFlags)
  | unmapPage (i : ι) (virt : BitVec 64)
  | access (i : ι) (virt : BitVec 64)
  | evict (i : ι) (page : BitVec 64)

/-- The call works on the tables of `i`. -/
def SpaceCall.Updates {ι : Type*} (i : ι) : SpaceCall ι → Prop
  | .mapPage j _ _ _ | .unmapPage j _ => j = i
  | .memory _ | .store _ _ | .access _ _ | .evict _ _ => False

/-- The address of a page frame. -/
def pageAddr (page : PageFrame) : BitVec 64 := BitVec.ofNat 64 (4096 * page)

/-- The memory manager with its clients, physical memory, and the buffers of the processors; and
what has been mapped on each. -/
structure SpaceSys (ι : Type*) where
  kernel : MemSys
  mem : PhysMem
  tlb : ι → Tlb
  pages : ι → PageRecord

/-- The memory manager's pages stay below `2 ^ 52` bytes and off the pages of the PML4s. -/
def MemSys.Spares {ι : Type*} (s : MemSys) (root : ι → BitVec 64) : MemCall → Prop
  | .registerRegion base len => base + len ≤ 2 ^ 52 ∧
      ∀ i, (root i).toNat / pageSize ∉ Span.cells ⟨base / pageSize, len / pageSize⟩
  | .init => s.manager.buddy.totalPages = 0 →
      ∀ i, (root i).toNat / pageSize ∉ Span.cells ⟨0, MemoryManager.fakePages⟩
  | _ => True

instance {ι : Type*} [Fintype ι] (s : MemSys) (root : ι → BitVec 64) :
    (call : MemCall) → Decidable (s.Spares root call)
  | .registerRegion _ _ => inferInstanceAs (Decidable (_ ∧ _))
  | .init => inferInstanceAs (Decidable (_ → _))
  | .allocPage | .allocHugePage | .cowFault _ | .freePage _ | .freeHugePage _ =>
    inferInstanceAs (Decidable True)

namespace SpaceSys

variable {ι : Type*}

section Machine

variable [DecidableEq ι] (cr3 : ι → BitVec 64) (base : BitVec 64)

/-- What a call may assume. -/
def Legal (s : SpaceSys ι) : SpaceCall ι → Prop
  | .memory call => (s.kernel.Legal call ∧ s.kernel.FreePage call) ∧
      s.kernel.Spares (roots cr3) call
  | .store page _ => s.kernel.Owns page
  | .mapPage _ virt _ _ => Canonical virt
  | .unmapPage _ virt => Canonical virt
  | .access _ virt => Canonical virt
  | .evict _ _ => True

instance [Fintype ι] (s : SpaceSys ι) : (call : SpaceCall ι) → Decidable (s.Legal cr3 call)
  | .memory _ => inferInstanceAs (Decidable (_ ∧ _))
  | .store page _ => inferInstanceAs (Decidable (s.kernel.Owns page))
  | .mapPage _ virt _ _ | .unmapPage _ virt | .access _ virt =>
    inferInstanceAs (Decidable (Canonical virt))
  | .evict _ _ => inferInstanceAs (Decidable True)

/-- What an access finds: the buffer's answer, or that of a walk. -/
def lookup (s : SpaceSys ι) (i : ι) (virt : BitVec 64) : Option (BitVec 64 × Perms) :=
  LookupCache.lookup pageOf (fun v ↦ hardwareWalk (readCr3 (cr3 i)) v s.mem) (s.tlb i) virt

/-- The state after a call, `none` when it panics. -/
def next (s : SpaceSys ι) : SpaceCall ι → Option (SpaceSys ι)
  | .memory call => (s.kernel.step call).toOption.map fun (_, k) ↦ { s with kernel := k }
  | .store page content => some { s with mem := Function.update s.mem (pageAddr page) content }
  | .mapPage i virt phys flags =>
    let (r, mem, k, tlb) :=
      Zeroxos.mapPage (cr3 i) base virt phys flags s.mem
        (.ok (s.kernel.manager, s.kernel.statics)) (s.tlb i)
    k.toOption.map fun (m, st) ↦
      ⟨{ s.kernel with manager := m, statics := st }, mem, Function.update s.tlb i tlb,
        Function.update s.pages i ((s.pages i).mapped virt phys flags r)⟩
  | .unmapPage i virt =>
    let (mem, tlb) := Zeroxos.unmapPage (cr3 i) virt s.mem (s.tlb i)
    some { s with
      mem := mem
      tlb := Function.update s.tlb i tlb
      pages := Function.update s.pages i ((s.pages i).unmapped virt) }
  | .access i virt =>
    let found := hardwareWalk (readCr3 (cr3 i)) virt s.mem
    some { s with
      tlb := Function.update s.tlb i (Function.update (s.tlb i) (pageOf virt) found) }
  | .evict i page =>
    some { s with tlb := Function.update s.tlb i (Function.update (s.tlb i) page none) }

/-- From the first call of the memory manager on, with a zeroed PML4 and an empty buffer for every
processor. -/
def machine : Machine (SpaceSys ι) (SpaceCall ι) where
  init s := s.kernel = MemSys.new ∧ (∀ i, s.mem (readCr3 (cr3 i)) = PageTable.empty) ∧
    s.tlb = (fun _ _ ↦ none) ∧ s.pages = fun _ _ ↦ none
  Legal := Legal cr3
  next := next cr3 base

instance [Fintype ι] (s : SpaceSys ι) (call : SpaceCall ι) :
    Decidable ((machine cr3 base).Legal s call) :=
  inferInstanceAs (Decidable (s.Legal cr3 call))

end Machine

end SpaceSys

/-! ## The hook -/

namespace AddressSpace

variable {ι : Type*} {root : ι → BitVec 64} {registered : List Span} {owned : Multiset Block}
  {used : Set (BitVec 64)} {m : MemoryManager} {st : Statics}

/-- The pages registered can be page tables. -/
def Spared (root : ι → BitVec 64) (registered : List Span) : Prop :=
  ∀ r ∈ registered, ∀ p ∈ r.cells, p < 2 ^ 40 ∧ ∀ i, p ≠ (root i).toNat / pageSize

/-- The frames taken through the hook are outstanding next to those of the clients. -/
def Hooked (registered : List Span) (owned : Multiset Block)
    (k : Except Panic (MemoryManager × Statics)) (used : Set (BitVec 64)) : Prop :=
  ∃ m st hooked, k = .ok (m, st) ∧ BuddySys.Inv ⟨m.buddy, st, registered, owned + hooked⟩ ∧
    ∀ f ∈ used, ∃ p, (⟨p, 0⟩ : Block) ∈ hooked ∧ f.toNat = 4096 * p

theorem toNat_pageAddr {p : ℕ} (hp : p < 2 ^ 40) : (pageAddr p).toNat = 4096 * p := by
  rw [pageAddr, BitVec.toNat_ofNat]
  omega

theorem frameAddr_pageAddr {p : ℕ} (hp : p < 2 ^ 40) : FrameAddr (pageAddr p) := by
  rw [FrameAddr, toNat_pageAddr hp]
  omega

theorem toNat_div_pageSize {f : BitVec 64} {p : PageFrame} (h : f.toNat = 4096 * p) :
    f.toNat / pageSize = p := by
  rw [h, pageSize, Nat.mul_div_cancel_left p (by norm_num)]

theorem page_unique {f : BitVec 64} {p q : PageFrame} (hp : f.toNat = 4096 * p)
    (hq : f.toNat = 4096 * q) : p = q := by
  rw [← toNat_div_pageSize hp, toNat_div_pageSize hq]

theorem allocZeroed_none {b : BuddyAllocator} {st₁ : Statics}
    (h : alloc 0 m.buddy st = .ok (none, b, st₁)) (base : Word) :
    (kernelFrames base).allocZeroed (.ok (m, st)) = (none, .ok ({ m with buddy := b }, st₁)) := by
  simp only [kernelFrames, GlobalFrames.allocZeroed, allocFrame, MemoryManager.allocPage, h,
    Except.map]
  rfl

/-- The hook when the allocator answers with page `f`: page 0 is lost. -/
theorem allocZeroed_some {b : BuddyAllocator} {st₁ : Statics} {f : PageFrame}
    (h : alloc 0 m.buddy st = .ok (some f, b, st₁)) (hf : f < 2 ^ 52) (base : Word) :
    (kernelFrames base).allocZeroed (.ok (m, st)) =
      (if 4096 * f = 0 then none else some (pageAddr f), .ok ({ m with buddy := b },
        { st₁ with freeMemory := wsub st₁.freeMemory pageSize })) := by
  simp only [kernelFrames]
  rw [FrameHook.allocZeroed_eq h hf]
  split_ifs <;> rfl

/-- **The hook hands out frames that nobody has.** -/
theorem kernelFrames_guards (hspared : Spared root registered) (base : Word) (i : ι) :
    (kernelFrames base).Guards (root i) (Hooked registered owned) := by
  -- what one allocation does, whatever the hook makes of it
  have hstep : ∀ {k k' ans used}, Hooked registered owned k used →
      (kernelFrames base).allocZeroed k = (ans, k') → Hooked registered owned k' used ∧
        ∀ f, ans = some f → FrameAddr f ∧ f ≠ root i ∧ f ∉ used ∧
          Hooked registered owned k' (insert f used) := by
    rintro k k' ans used ⟨m, st, hooked, rfl, hinv, hused⟩ hans
    obtain ⟨r, b, st', halloc, hafter, s', hreturns⟩ := hinv.alloc_ok 0
    dsimp only at halloc hafter hreturns
    cases r with
    | none =>
      rw [allocZeroed_none halloc] at hans
      obtain ⟨rfl, rfl⟩ := Prod.mk.inj hans
      exact ⟨⟨_, _, hooked, rfl, hafter, hused⟩, fun f hf ↦ nomatch hf⟩
    | some f =>
      -- the page was free, hence registered and nobody's
      obtain ⟨-, -, -, hcells, -⟩ := hreturns
      obtain ⟨c, hc, hfc⟩ := hcells f (le_refl f) (Nat.lt_succ_self f)
      have hregistered :
          f ∈ BuddySys.registeredCells ⟨m.buddy, st, registered, owned + hooked⟩ := by
        rw [← hinv.cover_eq]
        exact Multiset.mem_add.mpr (.inl (mem_cover.mpr ⟨c, hc, hfc⟩))
      obtain ⟨span, hspan, hfspan⟩ := BuddySys.mem_registeredCells.mp hregistered
      obtain ⟨hlt, hne⟩ := hspared span hspan f hfspan
      have hnew : (⟨f, 0⟩ : Block) ∉ owned + hooked := fun hmem ↦
        hinv.not_mem_outstanding hc hfc _ hmem (base_mem_cells ⟨f, 0⟩)
      have hword : f < 2 ^ 52 := hlt.trans (by norm_num)
      rw [allocZeroed_some halloc hword] at hans
      obtain ⟨rfl, rfl⟩ := Prod.mk.inj hans
      have hinv' : BuddySys.Inv ⟨b, { st' with freeMemory := wsub st'.freeMemory pageSize },
          registered, owned + (⟨f, 0⟩ ::ₘ hooked)⟩ := by
        refine hafter.of_eq rfl rfl ?_ ?_
        · exact (Multiset.add_cons _ _ _)
        · obtain ⟨_, _, pages, _, _⟩ := st'
          dsimp only
      have hused' : ∀ g ∈ used, ∃ p, (⟨p, 0⟩ : Block) ∈ ⟨f, 0⟩ ::ₘ hooked ∧ g.toNat = 4096 * p :=
        fun g hg ↦ (hused g hg).imp fun p hp ↦ ⟨Multiset.mem_cons_of_mem hp.1, hp.2⟩
      refine ⟨⟨_, _, ⟨f, 0⟩ ::ₘ hooked, rfl, hinv', hused'⟩, fun g hg ↦ ?_⟩
      split_ifs at hg
      obtain rfl := Option.some_inj.mp hg
      have hnat := toNat_pageAddr hlt
      refine ⟨frameAddr_pageAddr hlt, fun hroot ↦ hne i ?_, fun hmem ↦ ?_,
        ⟨_, _, ⟨f, 0⟩ ::ₘ hooked, rfl, hinv', fun h hh ↦ ?_⟩⟩
      · rw [← hroot, toNat_div_pageSize hnat]
      · obtain ⟨p, hp, hpf⟩ := hused _ hmem
        obtain rfl := page_unique hpf hnat
        exact hnew (Multiset.mem_add.mpr (.inr hp))
      · rcases hh with rfl | hh
        · exact ⟨f, Multiset.mem_cons_self _ _, hnat⟩
        · exact hused' h hh
  exact
    { none := fun hI hans ↦ (hstep hI hans).1
      some := fun hI hans ↦ (hstep hI hans).2 _ rfl }

end AddressSpace

/-! ## The clients -/

namespace MemSys

variable {ι : Type*} {s s' : MemSys} {call : MemCall} {r : Option PageFrame} {root : ι → BitVec 64}

/-- More is outstanding than the clients own. -/
def withHooked (s : MemSys) (hooked : Multiset Block) : MemSys :=
  { s with owned := s.owned + hooked }

theorem step_withHooked (hlegal : s.Legal call) (hooked : Multiset Block) :
    (s.withHooked hooked).step call
      = (s.step call).map fun (r, s') ↦ (r, s'.withHooked hooked) := by
  have hcons : ∀ (r : Option PageFrame) (k : ℕ), (s.withHooked hooked).taken k r
      = s.taken k r + hooked := by
    intro r k
    cases r with
    | none => rfl
    | some f => exact (Multiset.cons_add _ _ _).symm
  cases call with
  | registerRegion base len =>
    simp only [step, withHooked]
    cases MemoryManager.registerRegion base len s.manager <;> rfl
  | init =>
    simp only [step, withHooked]
    cases s.manager.init s.statics <;> rfl
  | allocPage =>
    simp only [step, hcons]
    simp only [withHooked]
    cases s.manager.allocPage s.statics <;> rfl
  | allocHugePage =>
    simp only [step, hcons]
    simp only [withHooked]
    cases s.manager.allocHugePage s.statics <;> rfl
  | cowFault src =>
    simp only [step, withHooked, ← Multiset.cons_add]
    cases s.manager.cowFault src s.statics <;> rfl
  | freePage frame =>
    have hmem : (⟨frame, 0⟩ : Block) ∈ s.owned := hlegal
    simp only [step, withHooked, Multiset.erase_add_left_pos _ hmem]
    cases s.manager.freePage frame s.statics <;> rfl
  | freeHugePage frame =>
    have hmem : (⟨frame, maxOrder⟩ : Block) ∈ s.owned := hlegal
    simp only [step, withHooked, Multiset.erase_add_left_pos _ hmem]
    cases s.manager.freeHugePage frame s.statics <;> rfl

theorem legal_withHooked (hlegal : s.Legal call) (hooked : Multiset Block) :
    (s.withHooked hooked).Legal call := by
  cases call with
  | registerRegion base len => exact hlegal
  | init => trivial
  | allocPage => trivial
  | allocHugePage => trivial
  | cowFault src =>
    obtain ⟨b, hb, hsrc⟩ := hlegal
    exact ⟨b, Multiset.mem_add.mpr (.inl hb), hsrc⟩
  | freePage frame => exact Multiset.mem_add.mpr (.inl hlegal)
  | freeHugePage frame => exact Multiset.mem_add.mpr (.inl hlegal)

theorem freePage_withHooked (hfree : s.FreePage call) (hooked : Multiset Block) :
    (s.withHooked hooked).FreePage call := by
  cases call <;> exact hfree

/-- **A client's call**, with frames in use that the client does not know of. -/
theorem step_shared {hooked : Multiset Block} (h : (s.withHooked hooked).buddySys.Inv)
    (hlegal : s.Legal call) (hfree : s.FreePage call) :
    ∃ r s', s.step call = .ok (r, s') ∧ (s'.withHooked hooked).buddySys.Inv := by
  obtain ⟨r, t, hstep, hinv⟩ :=
    step_ok h (legal_withHooked hlegal hooked) (freePage_withHooked hfree hooked)
  rw [step_withHooked hlegal] at hstep
  cases hs : s.step call with
  | error e =>
    rw [hs] at hstep
    cases hstep
  | ok p =>
    rw [hs] at hstep
    obtain ⟨-, rfl⟩ := Prod.mk.inj (Except.ok.inj hstep)
    exact ⟨p.1, p.2, rfl, hinv⟩

theorem registered_of_step (h : s.step call = .ok (r, s')) :
    s'.registered = s.registered ∨
    (∃ base len, call = .registerRegion base len ∧
      s'.registered = ⟨base / pageSize, len / pageSize⟩ :: s.registered) ∨
    call = .init ∧ s.manager.buddy.totalPages = 0 ∧
      s'.registered = ⟨0, MemoryManager.fakePages⟩ :: s.registered := by
  have hmap : ∀ {α : Type} {x : Except Panic α} {f : α → Option PageFrame × MemSys}
      {l : List Span}, x.map f = .ok (r, s') → (∀ a, (f a).2.registered = l) →
      s'.registered = l := by
    intro α x f l hx hl
    cases x with
    | error e => cases hx
    | ok a =>
      have ha := hl a
      rw [show f a = (r, s') from Except.ok.inj hx] at ha
      exact ha
  cases call with
  | registerRegion base len =>
    have hreg : s'.registered = if 0 < len / pageSize then
        ⟨base / pageSize, len / pageSize⟩ :: s.registered else s.registered := hmap h fun _ ↦ rfl
    split_ifs at hreg with hlen
    · exact .inr (.inl ⟨base, len, rfl, hreg⟩)
    · exact .inl hreg
  | init =>
    have hreg : s'.registered = if s.manager.buddy.totalPages = 0 then
        ⟨0, MemoryManager.fakePages⟩ :: s.registered else s.registered := hmap h fun _ ↦ rfl
    split_ifs at hreg with hnone
    · exact .inr (.inr ⟨rfl, hnone, hreg⟩)
    · exact .inl hreg
  | allocPage => exact .inl (hmap h fun _ ↦ rfl)
  | allocHugePage => exact .inl (hmap h fun _ ↦ rfl)
  | cowFault src => exact .inl (hmap h fun _ ↦ rfl)
  | freePage frame => exact .inl (hmap h fun _ ↦ rfl)
  | freeHugePage frame => exact .inl (hmap h fun _ ↦ rfl)

theorem spared_of_step (h : s.step call = .ok (r, s')) (hspares : s.Spares root call)
    (hs : AddressSpace.Spared root s.registered) : AddressSpace.Spared root s'.registered := by
  have hadd : ∀ span : Span, span.base + span.len ≤ 2 ^ 40 →
      (∀ i, (root i).toNat / pageSize ∉ span.cells) →
        AddressSpace.Spared root (span :: s.registered) := by
    intro span hle hroot r hr p hp
    rcases List.mem_cons.mp hr with rfl | hr
    · have hlt := (Span.mem_cells.mp hp).2
      exact ⟨hlt.trans_le hle, fun i heq ↦ hroot i (heq ▸ hp)⟩
    · exact hs r hr p hp
  rcases registered_of_step h with hreg | ⟨base, len, rfl, hreg⟩ | ⟨rfl, hnone, hreg⟩
  · rw [hreg]
    exact hs
  · rw [hreg]
    obtain ⟨hle, hroot⟩ := hspares
    refine hadd _ ?_ hroot
    dsimp only [pageSize]
    omega
  · rw [hreg]
    exact hadd _ (by norm_num [MemoryManager.fakePages, pageSize]) (hspares hnone)

end MemSys

/-! ## The invariant -/

namespace AddressSpace

variable {ι : Type*} {root : ι → BitVec 64} {hooked : Multiset Block} {used : ι → Set (BitVec 64)}
  {k : MemSys} {b : Block} {p : PageFrame} {f : BitVec 64}

/-- The frames of the tables: `used i` are those of address space `i`, taken through the hook, and
outstanding next to those of the clients. -/
structure Frames (root : ι → BitVec 64) (hooked : Multiset Block) (used : ι → Set (BitVec 64))
    (k : MemSys) : Prop where
  buddy : (k.withHooked hooked).buddySys.Inv
  spared : Spared root k.registered
  taken : ∀ i, ∀ f ∈ used i, ∃ p, (⟨p, 0⟩ : Block) ∈ hooked ∧ f.toNat = 4096 * p
  apart : ∀ i j, i ≠ j → ∀ f ∈ used i, f ∉ used j

/-- The frames of the other address spaces. -/
def others (used : ι → Set (BitVec 64)) (i : ι) : Set (BitVec 64) := {f | ∃ j, j ≠ i ∧ f ∈ used j}

theorem Frames.of_outstanding (h : Frames root hooked used k) (hb : b ∈ k.owned + hooked)
    (hp : p ∈ b.cells) :
    (∃ r ∈ k.registered, p ∈ r.cells) ∧ p < 2 ^ 40 ∧ ∀ i, p ≠ (root i).toNat / pageSize := by
  have hregistered : p ∈ (k.withHooked hooked).buddySys.registeredCells := by
    rw [← h.buddy.cover_eq]
    exact Multiset.mem_add.mpr (.inr (mem_cover.mpr ⟨b, hb, hp⟩))
  obtain ⟨span, hspan, hpspan⟩ := BuddySys.mem_registeredCells.mp hregistered
  exact ⟨⟨span, hspan, hpspan⟩, h.spared span hspan p hpspan⟩

theorem Frames.ne_root (h : Frames root hooked used k) {i : ι} (hf : f ∈ used i) (j : ι) :
    f ≠ root j := by
  obtain ⟨p, hp, hfp⟩ := h.taken i f hf
  obtain ⟨-, -, hne⟩ := h.of_outstanding (Multiset.mem_add.mpr (.inr hp)) (base_mem_cells ⟨p, 0⟩)
  rintro rfl
  exact hne j (toNat_div_pageSize hfp).symm

theorem Frames.toNat_of_owns (h : Frames root hooked used k) (hp : k.Owns p) :
    (pageAddr p).toNat = 4096 * p := by
  obtain ⟨b, hb, hpb⟩ := hp
  exact toNat_pageAddr (h.of_outstanding (Multiset.mem_add.mpr (.inl hb)) hpb).2.1

theorem Frames.nodup_outstanding (h : Frames root hooked used k) :
    (cover cells k.owned + cover cells hooked).Nodup := by
  have hle : cover cells (k.owned + hooked) ≤ (k.withHooked hooked).buddySys.registeredCells := by
    rw [← h.buddy.cover_eq]
    exact Multiset.le_add_left _ _
  rw [← cover_add]
  exact Multiset.nodup_of_le hle h.buddy.nodup

/-- A page of a client is neither a root nor a table. -/
theorem Frames.not_table (h : Frames root hooked used k) (hp : k.Owns p) (i : ι) :
    pageAddr p ≠ root i ∧ pageAddr p ∉ used i := by
  have hnat := h.toNat_of_owns hp
  obtain ⟨b, hb, hpb⟩ := hp
  refine ⟨fun hroot ↦ ?_, fun hmem ↦ ?_⟩
  · apply (h.of_outstanding (Multiset.mem_add.mpr (.inl hb)) hpb).2.2 i
    rw [← hroot, toNat_div_pageSize hnat]
  · -- the page would be outstanding twice
    obtain ⟨q, hq, hqp⟩ := h.taken i _ hmem
    obtain rfl := page_unique hqp hnat
    exact Multiset.disjoint_left.mp (Multiset.nodup_add.mp h.nodup_outstanding).2.2
      (mem_cover.mpr ⟨b, hb, hpb⟩) (mem_cover.mpr ⟨_, hq, base_mem_cells ⟨q, 0⟩⟩)

/-- Frames taken for one address space, which are not those of another. -/
theorem Frames.update [DecidableEq ι] (h : Frames root hooked used k) {i : ι} {k' : MemSys}
    {hooked' : Multiset Block} {used' : Set (BitVec 64)}
    (hbuddy : (k'.withHooked hooked').buddySys.Inv) (hregistered : k'.registered = k.registered)
    (htaken : ∀ f ∈ used' ∪ others used i, ∃ p, (⟨p, 0⟩ : Block) ∈ hooked' ∧ f.toNat = 4096 * p)
    (hapart : ∀ f ∈ used', f ∉ others used i) :
    Frames root hooked' (Function.update used i used') k' := by
  refine ⟨hbuddy, hregistered ▸ h.spared, fun j f hf ↦ ?_, fun j j' hne f hf hf' ↦ ?_⟩
  · rcases eq_or_ne j i with rfl | hji
    · rw [Function.update_self] at hf
      exact htaken f (.inl hf)
    · rw [Function.update_of_ne hji] at hf
      exact htaken f (.inr ⟨j, hji, hf⟩)
  · rcases eq_or_ne j i with rfl | hji
    · rw [Function.update_self] at hf
      rw [Function.update_of_ne hne.symm] at hf'
      exact hapart f hf ⟨j', hne.symm, hf'⟩
    · rw [Function.update_of_ne hji] at hf
      rcases eq_or_ne j' i with rfl | hji'
      · rw [Function.update_self] at hf'
        exact hapart f hf' ⟨j, hji, hf⟩
      · rw [Function.update_of_ne hji'] at hf'
        exact h.apart j j' hne f hf hf'

/-- One address space: a tree of tables in frames of `used`, whose leaves are what was mapped, and a
buffer with nothing stale in it. -/
structure Space (root : BitVec 64) (used : Set (BitVec 64)) (m : PhysMem) (pages : PageRecord)
    (tlb : Tlb) : Prop where
  tables : Tables root used m
  reads : pages.Reads root m
  coherent : LookupCache.Coherent pageOf Canonical (fun v ↦ hardwareWalk root v m) tlb

variable {root : BitVec 64} {used : Set (BitVec 64)} {m m' : PhysMem} {pages pages' : PageRecord}
  {tlb : Tlb}

theorem Space.hardwareWalk_eq (h : Space root used m pages tlb) {v : BitVec 64}
    (hv : Canonical v) :
    hardwareWalk root v m = (pages (pageOf v)).map fun M ↦ (M.1, M.2.perms) :=
  h.reads.hardwareWalk_eq h.tables hv

/-- **Memory that holds no table may change.** -/
theorem Space.congr (h : Space root used m pages tlb)
    (heq : ∀ x, x = root ∨ x ∈ used → m' x = m x) : Space root used m' pages tlb := by
  obtain ⟨htables, hleaf⟩ := h.tables.congr heq
  have hreads := h.reads.congr hleaf
  refine ⟨htables, hreads, h.coherent.congr fun v hv ↦ ?_⟩
  rw [hreads.hardwareWalk_eq htables hv, h.hardwareWalk_eq hv]

/-- The tables may change at one page, if it is flushed. -/
theorem Space.flush (h : Space root used m pages tlb) {used' : Set (BitVec 64)}
    (htables : Tables root used' m') (hreads : pages'.Reads root m') {virt : BitVec 64}
    (hne : ∀ page, page ≠ pageOf virt → pages' page = pages page) :
    Space root used' m' pages' (flushTlb virt tlb) := by
  refine ⟨htables, hreads, h.coherent.change fun v hv hpage ↦ ?_⟩
  rw [hreads.hardwareWalk_eq htables hv, h.hardwareWalk_eq hv, hne _ hpage]

theorem Space.access (h : Space root used m pages tlb) {virt : BitVec 64}
    (hvirt : Canonical virt) :
    Space root used m pages (Function.update tlb (pageOf virt) (hardwareWalk root virt m)) := by
  refine { h with coherent := h.coherent.fill (fun v w hv hw hpage ↦ ?_) hvirt }
  rw [h.hardwareWalk_eq hv, h.hardwareWalk_eq hw, hpage]

end AddressSpace

namespace SpaceSys

open AddressSpace

variable {ι : Type*} [DecidableEq ι] {cr3 : ι → BitVec 64} {base : BitVec 64}
  {root : ι → BitVec 64} {s s' : SpaceSys ι} {hooked hooked' : Multiset Block}
  {used : ι → Set (BitVec 64)} {call : SpaceCall ι} {i : ι}

/-- **The invariant.** -/
structure Inv (root : ι → BitVec 64) (hooked : Multiset Block) (used : ι → Set (BitVec 64))
    (s : SpaceSys ι) : Prop where
  frames : Frames root hooked used s.kernel
  space : ∀ i, Space (root i) (used i) s.mem (s.pages i) (s.tlb i)

theorem inv_init (hs : (machine cr3 base).init s) :
    s.Inv (roots cr3) 0 fun _ ↦ ∅ := by
  obtain ⟨hkernel, hroot, htlb, hpages⟩ := hs
  have hused : ∀ i : ι, ∀ f ∈ (∅ : Set (BitVec 64)), ∃ p, (⟨p, 0⟩ : Block) ∈ (0 : Multiset Block) ∧
      f.toNat = 4096 * p := fun _ f hf ↦ absurd hf (Set.notMem_empty f)
  refine ⟨⟨?_, ?_, hused, fun _ _ _ f _ ↦ Set.notMem_empty f⟩, fun i ↦ ?_⟩
  · rw [hkernel]
    exact BuddySys.inv_new
  · rw [hkernel]
    exact fun r hr ↦ absurd hr List.not_mem_nil
  · have hzero : ∀ j, (s.mem (readCr3 (cr3 i))).entries j = 0 := fun j ↦ by
      rw [hroot]
      rfl
    refine ⟨.of_zero hzero, fun v _ ↦ ?_, ?_⟩
    · rw [hpages, Tables.leafOf_of_walk_none (Tables.walk_cons_of_zero hzero _ _)]
      rfl
    · rw [htlb]
      exact LookupCache.coherent_empty _ _ _

/-- **One address space changes.** What is written is off the tables of the others. -/
theorem Inv.update (h : s.Inv root hooked used) (hroot : Function.Injective root) {k : MemSys}
    {mem : PhysMem} {pages : PageRecord} {tlb : Tlb} {used' : Set (BitVec 64)}
    (hframes : Frames root hooked' (Function.update used i used') k)
    (hspace : Space (root i) used' mem pages tlb)
    (hoff : ∀ x, x ≠ root i → x ∉ used' → mem x = s.mem x) :
    Inv root hooked' (Function.update used i used')
      ⟨k, mem, Function.update s.tlb i tlb, Function.update s.pages i pages⟩ := by
  refine ⟨hframes, fun j ↦ ?_⟩
  dsimp only
  have hself : Function.update used i used' i = used' := Function.update_self _ _ _
  rcases eq_or_ne j i with rfl | hne
  · rw [hself, Function.update_self, Function.update_self]
    exact hspace
  · have hj : Function.update used i used' j = used j := Function.update_of_ne hne _ _
    rw [hj, Function.update_of_ne hne, Function.update_of_ne hne]
    refine (h.space j).congr fun x hx ↦ ?_
    rcases hx with rfl | hx
    · refine hoff _ (hroot.ne hne) fun hmem ↦ ?_
      exact hframes.ne_root (i := i) (hself.symm ▸ hmem) j rfl
    · have hx' : x ∈ Function.update used i used' j := hj.symm ▸ hx
      refine hoff x (hframes.ne_root hx' i) fun hmem ↦ ?_
      exact hframes.apart j i hne x hx' (hself.symm ▸ hmem)

theorem Inv.update_tlb (h : s.Inv root hooked used) {tlb : Tlb}
    (hspace : Space (root i) (used i) s.mem (s.pages i) tlb) :
    Inv root hooked used { s with tlb := Function.update s.tlb i tlb } := by
  refine ⟨h.frames, fun j ↦ ?_⟩
  dsimp only
  rcases eq_or_ne j i with rfl | hne
  · rw [Function.update_self]
    exact hspace
  · rw [Function.update_of_ne hne]
    exact h.space j

/-! ## Every call keeps it -/

theorem Inv.memory (h : s.Inv root hooked used) {call : MemCall}
    (hlegal : s.kernel.Legal call ∧ s.kernel.FreePage call) (hspares : s.kernel.Spares root call) :
    ∃ k, s.next cr3 base (.memory call) = some { s with kernel := k } ∧
      Inv root hooked used { s with kernel := k } := by
  obtain ⟨r, k, hstep, hinv⟩ := MemSys.step_shared h.frames.buddy hlegal.1 hlegal.2
  refine ⟨k, ?_, { h.frames with
    buddy := hinv
    spared := MemSys.spared_of_step hstep hspares h.frames.spared }, h.space⟩
  rw [next, hstep]
  rfl

omit [DecidableEq ι] in
theorem Inv.store (h : s.Inv root hooked used) {p : PageFrame} (hp : s.kernel.Owns p)
    (content : PageTable) :
    Inv root hooked used { s with mem := Function.update s.mem (pageAddr p) content } := by
  refine ⟨h.frames, fun i ↦ (h.space i).congr fun x hx ↦ Function.update_of_ne ?_ _ _⟩
  obtain ⟨hroot, hused⟩ := h.frames.not_table hp i
  rintro rfl
  exact hx.elim hroot hused

theorem Inv.mapPage (h : s.Inv (roots cr3) hooked used)
    (hroot : Function.Injective (roots cr3)) (i : ι) {virt : BitVec 64}
    (hvirt : Canonical virt) (phys : BitVec 64) (flags : PageFlags) :
    ∃ s' hooked' used', s.next cr3 base (.mapPage i virt phys flags) = some s' ∧
      s'.Inv (roots cr3) hooked' (Function.update used i used') ∧
      s'.kernel.owned = s.kernel.owned ∧ (∀ j, j ≠ i → s'.pages j = s.pages j) ∧
      ∀ x, x ≠ readCr3 (cr3 i) → x ∉ used' → s'.mem x = s.mem x := by
  have hguards : (kernelFrames base).Guards (roots cr3 i) fun a used' ↦
      Hooked s.kernel.registered s.kernel.owned a (used' ∪ others used i)
        ∧ ∀ f ∈ used', f ∉ others used i :=
    (kernelFrames_guards h.frames.spared base i).beside (others used i)
  have hhooked : Hooked s.kernel.registered s.kernel.owned
      (.ok (s.kernel.manager, s.kernel.statics)) (used i ∪ others used i) := by
    refine ⟨_, _, hooked, rfl, h.frames.buddy, ?_⟩
    rintro f (hf | ⟨j, -, hf⟩)
    · exact h.frames.taken i f hf
    · exact h.frames.taken j f hf
  have hapart : ∀ f ∈ used i, f ∉ others used i :=
    fun f hf ⟨j, hne, hj⟩ ↦ h.frames.apart j i hne f hj hf
  obtain ⟨r, mem, k, used', hmap, ⟨⟨m, st, hooked', rfl, hinv, htaken'⟩, hapart'⟩, htables, hoff,
    hreads⟩ := (h.space i).tables.mapPageIn_shared hguards
      ⟨hhooked, hapart⟩ (h.space i).reads hvirt phys flags
  have hframes : Frames (roots cr3) hooked' (Function.update used i used')
      { s.kernel with manager := m, statics := st } :=
    h.frames.update hinv rfl htaken' hapart'
  have hspace := (h.space i).flush htables hreads fun page hne ↦
    PageRecord.mapped_of_ne phys flags r hne
  refine ⟨_, hooked', used', ?_, h.update hroot hframes hspace hoff, rfl,
    fun _ hne ↦ Function.update_of_ne hne _ _, hoff⟩
  rw [next, Zeroxos.mapPage, hmap]
  rfl

theorem Inv.unmapPage (h : s.Inv (roots cr3) hooked used)
    (hroot : Function.Injective (roots cr3)) (i : ι) {virt : BitVec 64}
    (hvirt : Canonical virt) :
    ∃ s', s.next cr3 base (.unmapPage i virt) = some s' ∧ s'.Inv (roots cr3) hooked used ∧
      (∀ j, j ≠ i → s'.pages j = s.pages j) ∧
      ∀ x, x ≠ readCr3 (cr3 i) → x ∉ used i → s'.mem x = s.mem x := by
  obtain ⟨mem, hunmap, htables, hoff, hreads⟩ :=
    (h.space i).tables.unmapPageIn_shared (h.space i).reads hvirt
  have hspace := (h.space i).flush htables hreads fun page hne ↦ PageRecord.unmapped_of_ne hne
  have hframes : Frames (roots cr3) hooked (Function.update used i (used i)) s.kernel := by
    rw [Function.update_eq_self]
    exact h.frames
  have hinv := h.update hroot hframes hspace hoff
  rw [Function.update_eq_self] at hinv
  refine ⟨_, ?_, hinv, fun _ hne ↦ Function.update_of_ne hne _ _, hoff⟩
  rw [next, Zeroxos.unmapPage, hunmap]

/-- **One call**: it returns, keeps the invariant, and writes no page of a client but the one the
client itself stores to. -/
theorem Inv.step_ok (h : s.Inv (roots cr3) hooked used)
    (hroot : Function.Injective (roots cr3)) (base : BitVec 64) (hlegal : s.Legal cr3 call) :
    ∃ s' hooked' used', s.next cr3 base call = some s' ∧ s'.Inv (roots cr3) hooked' used' ∧
      (∀ i, ¬call.Updates i → s'.pages i = s.pages i) ∧
      ∀ p, s.kernel.Owns p → (∀ content, call ≠ .store p content) →
        s'.mem (pageAddr p) = s.mem (pageAddr p) := by
  cases call with
  | memory call =>
    obtain ⟨k, hnext, hinv⟩ := h.memory hlegal.1 hlegal.2
    exact ⟨_, hooked, used, hnext, hinv, fun _ _ ↦ rfl, fun _ _ _ ↦ rfl⟩
  | store q content =>
    refine ⟨_, hooked, used, rfl, h.store hlegal content, fun _ _ ↦ rfl, fun p hp hne ↦ ?_⟩
    refine Function.update_of_ne (fun heq ↦ ?_) _ _
    have hq := h.frames.toNat_of_owns hlegal
    rw [← heq] at hq
    obtain rfl := page_unique (h.frames.toNat_of_owns hp) hq
    exact hne content rfl
  | mapPage i virt phys flags =>
    obtain ⟨s', hooked', used', hnext, hinv, howned, hpages, hoff⟩ :=
      h.mapPage hroot i hlegal phys flags
    refine ⟨s', hooked', _, hnext, hinv, fun j hj ↦ hpages j (Ne.symm hj),
      fun p ⟨b, hb, hpb⟩ _ ↦ ?_⟩
    obtain ⟨hne, hnot⟩ := hinv.frames.not_table ⟨b, howned ▸ hb, hpb⟩ i
    rw [Function.update_self] at hnot
    exact hoff _ hne hnot
  | unmapPage i virt =>
    obtain ⟨s', hnext, hinv, hpages, hoff⟩ := h.unmapPage hroot i hlegal
    refine ⟨s', hooked, used, hnext, hinv, fun j hj ↦ hpages j (Ne.symm hj), fun p hp _ ↦ ?_⟩
    obtain ⟨hne, hnot⟩ := h.frames.not_table hp i
    exact hoff _ hne hnot
  | access i virt =>
    exact ⟨_, hooked, used, rfl, h.update_tlb ((h.space i).access hlegal), fun _ _ ↦ rfl,
      fun _ _ _ ↦ rfl⟩
  | evict i page =>
    refine ⟨_, hooked, used, rfl, h.update_tlb ?_, fun _ _ ↦ rfl, fun _ _ _ ↦ rfl⟩
    exact { h.space i with coherent := (h.space i).coherent.change fun _ _ _ ↦ rfl }

theorem inv_of_reachable (hroot : Function.Injective (roots cr3))
    (hs : (machine cr3 base).system.Reachable s) :
    ∃ hooked used, s.Inv (roots cr3) hooked used := by
  refine hs.invariant (P := fun s ↦ ∃ hooked used, s.Inv (roots cr3) hooked used)
    (fun s (hs : (machine cr3 base).init s) ↦ ⟨0, _, inv_init hs⟩) ?_
  rintro s call s' - ⟨hooked, used, hinv⟩ ⟨hlegal, hnext⟩
  obtain ⟨t, hooked', used', hnext', hinv', -⟩ := hinv.step_ok hroot base hlegal
  obtain rfl := Option.some_inj.mp (hnext'.symm.trans hnext)
  exact ⟨hooked', used', hinv'⟩

/-! ## The two results -/

/-- The table that a path of indices leads to from a PML4, itself included. -/
def table (cr3 : ι → BitVec 64) (s : SpaceSys ι) (i : ι) (path : List (Fin 512)) :
    Option (BitVec 64) := walk (link s.mem) (readCr3 (cr3 i)) path

end SpaceSys

namespace SpaceSys

end SpaceSys

end Zeroxos
