import Zeroxos.Kernel.BuddyPartition

/-!
# The memory manager, and who owns a frame

`MemoryManager` hands out single pages and 2 MB pages from the buddy allocator and keeps statistics
next to it. A client that takes a copy-on-write fault keeps the frame that faulted and becomes the
owner of the frame it gets back.

## The system

The system keeps the frames owned next to the manager, once for every owner, and through that record
it is a buddy allocator with its outstanding blocks (`buddySys`). So the partition of the pages
carries over from `BuddyPartition`, and with it that frames have one owner each.

## The condition

One call has no counterpart in the buddy allocator: when no page is left, `cow_fault` answers with
the very frame that faulted, which then has two owners. In runs that never let a fault happen with
no page free there is one owner for every frame, and the next fault keeps it so exactly when a page
is free (`frames_have_one_owner`).
-/

namespace Zeroxos

open Block BuddyAllocator

def pageSize : ℕ := 4096

def hugePage2M : ℕ := 2 * 1024 * 1024

structure MemoryManager where
  buddy : BuddyAllocator
  numaNodes : ℕ
  cowFaults : ℕ
deriving DecidableEq

namespace MemoryManager

def new : MemoryManager := ⟨BuddyAllocator.new, 1, 0⟩

/-- How many pages `init` makes up when no region was registered: 256 MB. -/
def fakePages : ℕ := 256 * 1024 * 1024 / pageSize

def init (m : MemoryManager) (st : Statics) : Except Panic (MemoryManager × Statics) :=
  let added := if m.buddy.totalPages = 0 then addRegion 0 fakePages m.buddy else .ok m.buddy
  added.map fun b ↦
    ({ m with buddy := b },
      { st with
        totalMemory := b.totalPages * pageSize % wordSize
        freeMemory := b.totalPages * pageSize % wordSize })

/-- `MemoryManager::register_region`, in bytes. -/
def registerRegion (base len : ℕ) (m : MemoryManager) : Except Panic MemoryManager :=
  if 0 < len / pageSize then
    (addRegion (base / pageSize) (len / pageSize) m.buddy).map fun b ↦ { m with buddy := b }
  else .ok m

def allocPage (m : MemoryManager) (st : Statics) :
    Except Panic (Option PageFrame × MemoryManager × Statics) :=
  (alloc 0 m.buddy st).map fun (r, b, st) ↦
    (r, { m with buddy := b },
      if r.isSome then { st with freeMemory := wsub st.freeMemory pageSize } else st)

def allocHugePage (m : MemoryManager) (st : Statics) :
    Except Panic (Option PageFrame × MemoryManager × Statics) :=
  (alloc maxOrder m.buddy st).map fun (r, b, st) ↦
    (r, { m with buddy := b },
      if r.isSome then
        { st with
          freeMemory := wsub st.freeMemory hugePage2M
          hugePages := wadd st.hugePages 1 }
      else st)

def freePage (frame : PageFrame) (m : MemoryManager) (st : Statics) :
    Except Panic (MemoryManager × Statics) :=
  (free frame 0 m.buddy st).map fun (b, st) ↦
    ({ m with buddy := b }, { st with freeMemory := wadd st.freeMemory pageSize })

def freeHugePage (frame : PageFrame) (m : MemoryManager) (st : Statics) :
    Except Panic (MemoryManager × Statics) :=
  (free frame maxOrder m.buddy st).map fun (b, st) ↦
    ({ m with buddy := b },
      { st with
        freeMemory := wadd st.freeMemory hugePage2M
        hugePages := wsub st.hugePages 1 })

/-- `MemoryManager::cow_fault`: without a free page the answer is `src`. -/
def cowFault (src : PageFrame) (m : MemoryManager) (st : Statics) :
    Except Panic (PageFrame × MemoryManager × Statics) :=
  let m := { m with cowFaults := wadd m.cowFaults 1 }
  let st := { st with cowFaults := wadd st.cowFaults 1 }
  (m.allocPage st).map fun (r, m, st) ↦ (r.getD src, m, st)

end MemoryManager

open MemoryManager

/-! ## The system -/

/-- The calls a client makes. -/
inductive MemCall
  | registerRegion (base len : ℕ)
  | init
  | allocPage
  | allocHugePage
  | cowFault (src : PageFrame)
  | freePage (frame : PageFrame)
  | freeHugePage (frame : PageFrame)
deriving DecidableEq, Repr

/-- The manager, the shared counters, and what the clients know. -/
structure MemSys where
  manager : MemoryManager
  statics : Statics
  /-- The page ranges registered so far. -/
  registered : List Span
  /-- The page ranges owned, once for every owner. -/
  owned : Multiset Block
deriving DecidableEq

namespace MemSys

/-- Before the first call. -/
def new : MemSys := ⟨MemoryManager.new, {}, [], 0⟩

/-- The ranges owned after a call that returned `r`, a block of the given order. -/
def taken (s : MemSys) (order : ℕ) (r : Option PageFrame) : Multiset Block :=
  r.elim s.owned fun f ↦ ⟨f, order⟩ ::ₘ s.owned

/-- One call, and the frame it returns. -/
def step (s : MemSys) : MemCall → Except Panic (Option PageFrame × MemSys)
  | .registerRegion base len =>
    (registerRegion base len s.manager).map fun m ↦
      (none, { s with
        manager := m
        registered :=
          if 0 < len / pageSize then ⟨base / pageSize, len / pageSize⟩ :: s.registered
          else s.registered })
  | .init =>
    (s.manager.init s.statics).map fun (m, st) ↦
      (none, { s with
        manager := m
        statics := st
        registered :=
          if s.manager.buddy.totalPages = 0 then ⟨0, fakePages⟩ :: s.registered
          else s.registered })
  | .allocPage =>
    (s.manager.allocPage s.statics).map fun (r, m, st) ↦
      (r, { s with manager := m, statics := st, owned := s.taken 0 r })
  | .allocHugePage =>
    (s.manager.allocHugePage s.statics).map fun (r, m, st) ↦
      (r, { s with manager := m, statics := st, owned := s.taken maxOrder r })
  | .cowFault src =>
    (s.manager.cowFault src s.statics).map fun (f, m, st) ↦
      (some f, { s with manager := m, statics := st, owned := ⟨f, 0⟩ ::ₘ s.owned })
  | .freePage frame =>
    (s.manager.freePage frame s.statics).map fun (m, st) ↦
      (none, { s with manager := m, statics := st, owned := s.owned.erase ⟨frame, 0⟩ })
  | .freeHugePage frame =>
    (s.manager.freeHugePage frame s.statics).map fun (m, st) ↦
      (none, { s with manager := m, statics := st, owned := s.owned.erase ⟨frame, maxOrder⟩ })

/-- The frame is in a range that is owned. -/
def Owns (s : MemSys) (f : PageFrame) : Prop := ∃ b ∈ s.owned, f ∈ b.cells

instance (s : MemSys) (f : PageFrame) : Decidable (s.Owns f) :=
  Multiset.decidableExistsMultiset (m := s.owned) (p := fun b : Block ↦ f ∈ b.cells)

/-- What a call may assume: a region ends below `2 ^ 64` and is apart from the regions before it, a
fault is on an owned frame, and a range is freed by its owner, as the kind it was allocated as. -/
def Legal (s : MemSys) : MemCall → Prop
  | .registerRegion base len => base + len < wordSize ∧
      ∀ r ∈ s.registered, Span.Apart 0 ⟨base / pageSize, len / pageSize⟩ r
  | .init => True
  | .allocPage => True
  | .allocHugePage => True
  | .cowFault src => s.Owns src
  | .freePage frame => (⟨frame, 0⟩ : Block) ∈ s.owned
  | .freeHugePage frame => (⟨frame, maxOrder⟩ : Block) ∈ s.owned

instance (s : MemSys) : (call : MemCall) → Decidable (s.Legal call)
  | .registerRegion _ _ => inferInstanceAs (Decidable (_ ∧ _))
  | .init => inferInstanceAs (Decidable True)
  | .allocPage => inferInstanceAs (Decidable True)
  | .allocHugePage => inferInstanceAs (Decidable True)
  | .cowFault src => inferInstanceAs (Decidable (s.Owns src))
  | .freePage _ => inferInstanceAs (Decidable (_ ∈ _))
  | .freeHugePage _ => inferInstanceAs (Decidable (_ ∈ _))

/-- The manager and its contract, and `guard` on top of it. -/
def machine (guard : MemSys → MemCall → Prop) : Machine MemSys MemCall where
  init s := s = new
  Legal s call := s.Legal call ∧ guard s call
  next s call := (s.step call).toOption.map Prod.snd

/-- The buddy allocator under the manager, the ranges owned being its outstanding blocks. -/
def buddySys (s : MemSys) : BuddySys := ⟨s.manager.buddy, s.statics, s.registered, s.owned⟩

end MemSys

/-! ## The buddy allocator, call by call -/

namespace BuddySys

variable {s s' : BuddySys} {b : Block} {p : ℕ}

private theorem exists_of_map_eq_ok {α β : Type*} {x : Except Panic α} {f : α → β} {y : β}
    (h : x.map f = .ok y) : ∃ a, x = .ok a ∧ f a = y := by
  cases x with
  | error e => cases h
  | ok a => exact ⟨a, rfl, Except.ok.inj h⟩

theorem Tally.of_eq (h : s.Tally) (hbuddy : s'.buddy = s.buddy)
    (hregistered : s'.registered = s.registered) (houtstanding : s'.outstanding = s.outstanding)
    (hpages : s'.statics.pagesAllocated = s.statics.pagesAllocated) : s'.Tally := by
  have hcells : s'.registeredCells = s.registeredCells := by
    rw [registeredCells, registeredCells, hregistered]
  refine ⟨?_, ?_, ?_, ?_, ?_, ?_, ?_, ?_⟩
  · rw [hbuddy]
    exact h.aligned
  · rw [houtstanding]
    exact h.aligned_outstanding
  · rw [hbuddy, houtstanding, hcells]
    exact h.cover_eq
  · rw [hcells]
    exact h.card_lt
  · rw [hcells]
    exact h.lt_wordSize
  · rw [hbuddy, hcells]
    exact h.totalPages
  · rw [hbuddy]
    exact h.freePages
  · rw [hpages, houtstanding]
    exact h.pagesAllocated

theorem Inv.of_eq (h : s.Inv) (hbuddy : s'.buddy = s.buddy)
    (hregistered : s'.registered = s.registered) (houtstanding : s'.outstanding = s.outstanding)
    (hpages : s'.statics.pagesAllocated = s.statics.pagesAllocated) : s'.Inv :=
  (h.tally.of_eq hbuddy hregistered houtstanding hpages).inv_of_registered h hregistered

theorem Tally.addRegion_ok (h : s.Tally) {start pageCount : ℕ}
    (hword : start + pageCount < wordSize)
    (hcard : s.registeredCells.card + pageCount < wordSize) :
    ∃ b, addRegion start pageCount s.buddy = .ok b ∧
      ({ s with
          buddy := b
          registered := ⟨start, pageCount⟩ :: s.registered } : BuddySys).Tally := by
  obtain ⟨s', hstep, htally, -⟩ := h.step_addRegion hword hcard
  obtain ⟨b, hadd, hs'⟩ := exists_of_map_eq_ok hstep
  cases hs'
  exact ⟨b, hadd, htally⟩

theorem Inv.addRegion_ok (h : s.Inv) {start pageCount : ℕ}
    (hlegal : s.Legal 0 (.addRegion start pageCount)) :
    ∃ b, addRegion start pageCount s.buddy = .ok b ∧
      ({ s with buddy := b, registered := ⟨start, pageCount⟩ :: s.registered } : BuddySys).Inv := by
  obtain ⟨s', hstep, hinv⟩ := step_addRegion h hlegal
  obtain ⟨b, hadd, hs'⟩ := exists_of_map_eq_ok hstep
  cases hs'
  exact ⟨b, hadd, hinv⟩

theorem Tally.alloc_ok (h : s.Tally) (k : ℕ) :
    ∃ r b st, alloc k s.buddy s.statics = .ok (r, b, st) ∧
      ({ s with
          buddy := b
          statics := st
          outstanding := r.elim s.outstanding fun f ↦ ⟨f, k⟩ ::ₘ s.outstanding } : BuddySys).Tally ∧
      ∃ s', s.Returns (.alloc k) r s' := by
  obtain ⟨r, s', hstep, htally, -, hreturns⟩ := h.step_alloc k
  obtain ⟨⟨r', b, st⟩, halloc, hs'⟩ := exists_of_map_eq_ok hstep
  cases hs'
  refine ⟨r, b, st, halloc, ?_, _, hreturns⟩
  cases r <;> exact htally

theorem Inv.alloc_ok (h : s.Inv) (k : ℕ) :
    ∃ r b st, alloc k s.buddy s.statics = .ok (r, b, st) ∧
      ({ s with
          buddy := b
          statics := st
          outstanding := r.elim s.outstanding fun f ↦ ⟨f, k⟩ ::ₘ s.outstanding } : BuddySys).Inv ∧
      ∃ s', s.Returns (.alloc k) r s' := by
  obtain ⟨r, b, st, halloc, htally, hreturns⟩ := h.tally.alloc_ok k
  exact ⟨r, b, st, halloc, htally.inv_of_registered h rfl, hreturns⟩

theorem Tally.free_ok (h : s.Tally) {frame order : ℕ} (hlegal : s.Legal 0 (.free frame order)) :
    ∃ b st, free frame order s.buddy s.statics = .ok (b, st) ∧
      ({ s with
          buddy := b
          statics := st
          outstanding := s.outstanding.erase ⟨frame, order⟩ } : BuddySys).Tally := by
  obtain ⟨s', hstep, htally, -⟩ := h.step_free hlegal
  obtain ⟨⟨b, st⟩, hfree, hs'⟩ := exists_of_map_eq_ok hstep
  cases hs'
  exact ⟨b, st, hfree, htally⟩

theorem Inv.free_ok (h : s.Inv) {frame order : ℕ} (hlegal : s.Legal 0 (.free frame order)) :
    ∃ b st, free frame order s.buddy s.statics = .ok (b, st) ∧
      ({ s with
          buddy := b
          statics := st
          outstanding := s.outstanding.erase ⟨frame, order⟩ } : BuddySys).Inv := by
  obtain ⟨b, st, hfree, htally⟩ := h.tally.free_ok hlegal
  exact ⟨b, st, hfree, htally.inv_of_registered h rfl⟩

theorem Inv.not_mem_outstanding (h : s.Inv) (hb : b ∈ s.buddy.freeBlocks) (hp : p ∈ b.cells) :
    ∀ c ∈ s.outstanding, p ∉ c.cells := by
  intro c hc hpc
  have hnodup := h.nodup
  rw [← h.cover_eq, Multiset.nodup_add] at hnodup
  exact Multiset.disjoint_left.mp hnodup.2.2 (mem_cover.mpr ⟨b, hb, hp⟩)
    (mem_cover.mpr ⟨c, hc, hpc⟩)

theorem Inv.freePages_ne_zero_iff (h : s.Inv) :
    s.buddy.freePages ≠ 0 ↔ ∃ b, b ∈ s.buddy.freeBlocks := by
  rw [h.freePages, Ne, Multiset.card_eq_zero, Multiset.eq_zero_iff_forall_notMem]
  constructor
  · intro hne
    push Not at hne
    obtain ⟨p, hp⟩ := hne
    obtain ⟨b, hb, -⟩ := mem_cover.mp hp
    exact ⟨b, hb⟩
  · rintro ⟨b, hb⟩ hnone
    refine hnone b.base (mem_cover.mpr ⟨b, hb, mem_cells.mpr ⟨le_refl _, ?_⟩⟩)
    exact Nat.lt_add_of_pos_right (Nat.two_pow_pos _)

end BuddySys

namespace MemSys

variable {s s' : MemSys} {call : MemCall}

/-! ## Every call keeps the partition -/

theorem registerRegion_ok (h : s.buddySys.Inv) {base len : ℕ}
    (hl : s.Legal (.registerRegion base len)) :
    ∃ s', s.step (.registerRegion base len) = .ok (none, s') ∧ s'.buddySys.Inv := by
  obtain ⟨hword, hapart⟩ := hl
  by_cases hpages : 0 < len / pageSize
  · have hle : base / pageSize + len / pageSize < wordSize :=
      lt_of_le_of_lt (Nat.add_le_add (Nat.div_le_self _ _) (Nat.div_le_self _ _)) hword
    obtain ⟨b, hadd, hinv⟩ := h.addRegion_ok ⟨hle, hapart⟩
    have hadd' : addRegion (base / pageSize) (len / pageSize) s.manager.buddy = .ok b := hadd
    refine ⟨{ s with
      manager := { s.manager with buddy := b }
      registered := ⟨base / pageSize, len / pageSize⟩ :: s.registered }, ?_, hinv⟩
    simp only [step, registerRegion, if_pos hpages, hadd', Except.map]
  · refine ⟨s, ?_, h⟩
    simp only [step, registerRegion, if_neg hpages, Except.map]

/-- `init` makes pages up only when no page was registered. -/
theorem init_ok (h : s.buddySys.Inv) :
    ∃ s', s.step .init = .ok (none, s') ∧ s'.buddySys.Inv := by
  by_cases hnone : s.manager.buddy.totalPages = 0
  · have hempty : ∀ r ∈ s.registered, r.len = 0 := by
      intro r hr
      have hcard : s.buddySys.registeredCells.card = 0 := h.totalPages.symm.trans hnone
      rw [BuddySys.card_registeredCells] at hcard
      exact List.sum_eq_zero_iff.mp hcard _ (List.mem_map_of_mem hr)
    have hlegal : s.buddySys.Legal 0 (.addRegion 0 fakePages) :=
      ⟨by norm_num [fakePages, pageSize, wordSize], fun r hr ↦ .inr (.inl (hempty r hr))⟩
    obtain ⟨b, hadd, hinv⟩ := h.addRegion_ok hlegal
    have hadd' : addRegion 0 fakePages s.manager.buddy = .ok b := hadd
    refine ⟨{ s with
      manager := { s.manager with buddy := b }
      statics := { s.statics with
        totalMemory := b.totalPages * pageSize % wordSize
        freeMemory := b.totalPages * pageSize % wordSize }
      registered := ⟨0, fakePages⟩ :: s.registered }, ?_, ?_⟩
    · simp only [step, MemoryManager.init, if_pos hnone, hadd', Except.map]
    · refine hinv.of_eq rfl rfl rfl ?_
      dsimp only [buddySys]
  · refine ⟨{ s with
      statics := { s.statics with
        totalMemory := s.manager.buddy.totalPages * pageSize % wordSize
        freeMemory := s.manager.buddy.totalPages * pageSize % wordSize } }, ?_, ?_⟩
    · simp only [step, MemoryManager.init, if_neg hnone, Except.map]
    · refine h.of_eq rfl rfl rfl ?_
      dsimp only [buddySys]

/-- `alloc_page` fails exactly when no page is free, and what it returns was not owned. -/
theorem allocPage_ok (h : s.buddySys.Inv) :
    ∃ r m st, s.manager.allocPage s.statics = .ok (r, m, st) ∧
      ({ s with manager := m, statics := st, owned := s.taken 0 r } : MemSys).buddySys.Inv ∧
      (r.isSome ↔ s.manager.buddy.freePages ≠ 0) ∧ ∀ f ∈ r, ¬s.Owns f := by
  obtain ⟨r, b, st, halloc, hinv, s', hreturns⟩ := h.alloc_ok 0
  have halloc' : alloc 0 s.manager.buddy s.statics = .ok (r, b, st) := halloc
  have hfree := h.freePages_ne_zero_iff
  refine ⟨r, { s.manager with buddy := b },
    if r.isSome then { st with freeMemory := wsub st.freeMemory pageSize } else st, ?_, ?_, ?_, ?_⟩
  · simp only [allocPage, halloc', Except.map]
  · refine hinv.of_eq rfl rfl rfl ?_
    cases r <;> simp [buddySys]
  · refine Iff.trans ?_ hfree.symm
    cases r with
    | none =>
      obtain ⟨hnone, -⟩ := hreturns
      refine iff_of_false nofun ?_
      rintro ⟨c, hc⟩
      rcases hnone with hmax | hnone
      · exact Nat.not_lt_zero _ hmax
      · exact Nat.not_lt_zero _ (hnone c hc)
    | some f =>
      obtain ⟨-, ⟨c, hc, -⟩, -⟩ := hreturns
      exact iff_of_true rfl ⟨c, hc⟩
  · rintro f rfl ⟨c, hc, hfc⟩
    obtain ⟨-, -, -, hcells, -⟩ := hreturns
    obtain ⟨d, hd, hfd⟩ := hcells f (le_refl f) (Nat.lt_succ_self f)
    exact h.not_mem_outstanding hd hfd c hc hfc

theorem allocHugePage_ok (h : s.buddySys.Inv) :
    ∃ r s', s.step .allocHugePage = .ok (r, s') ∧ s'.buddySys.Inv := by
  obtain ⟨r, b, st, halloc, hinv, -⟩ := h.alloc_ok maxOrder
  have halloc' : alloc maxOrder s.manager.buddy s.statics = .ok (r, b, st) := halloc
  refine ⟨r, { s with
    manager := { s.manager with buddy := b }
    statics :=
      if r.isSome then
        { st with
          freeMemory := wsub st.freeMemory hugePage2M
          hugePages := wadd st.hugePages 1 }
      else st
    owned := s.taken maxOrder r }, ?_, ?_⟩
  · simp only [step, allocHugePage, halloc', Except.map]
  · refine hinv.of_eq rfl rfl rfl ?_
    cases r <;> simp [buddySys]

theorem freePage_ok (h : s.buddySys.Inv) {frame : PageFrame} (hl : s.Legal (.freePage frame)) :
    ∃ s', s.step (.freePage frame) = .ok (none, s') ∧ s'.buddySys.Inv := by
  obtain ⟨b, st, hfree, hinv⟩ := BuddySys.Inv.free_ok h hl
  have hfree' : free frame 0 s.manager.buddy s.statics = .ok (b, st) := hfree
  refine ⟨{ s with
    manager := { s.manager with buddy := b }
    statics := { st with freeMemory := wadd st.freeMemory pageSize }
    owned := s.owned.erase ⟨frame, 0⟩ }, ?_, ?_⟩
  · simp only [step, freePage, hfree', Except.map]
  · refine hinv.of_eq rfl rfl rfl ?_
    dsimp only [buddySys]

theorem freeHugePage_ok (h : s.buddySys.Inv) {frame : PageFrame}
    (hl : s.Legal (.freeHugePage frame)) :
    ∃ s', s.step (.freeHugePage frame) = .ok (none, s') ∧ s'.buddySys.Inv := by
  obtain ⟨b, st, hfree, hinv⟩ := BuddySys.Inv.free_ok h hl
  have hfree' : free frame maxOrder s.manager.buddy s.statics = .ok (b, st) := hfree
  refine ⟨{ s with
    manager := { s.manager with buddy := b }
    statics := { st with
      freeMemory := wadd st.freeMemory hugePage2M
      hugePages := wsub st.hugePages 1 }
    owned := s.owned.erase ⟨frame, maxOrder⟩ }, ?_, ?_⟩
  · simp only [step, freeHugePage, hfree', Except.map]
  · refine hinv.of_eq rfl rfl rfl ?_
    obtain ⟨_, _, pages, _, _⟩ := st
    dsimp only [buddySys]

/-- A fault is answered, and the answer is a frame nobody owns as long as a page is free; when none
is, the answer is the frame that faulted. -/
theorem cowFault_ok (h : s.buddySys.Inv) (src : PageFrame) :
    ∃ f s', s.step (.cowFault src) = .ok (some f, s') ∧ s'.owned = ⟨f, 0⟩ ::ₘ s.owned ∧
      (s.manager.buddy.freePages ≠ 0 → s'.buddySys.Inv ∧ ¬s.Owns f) ∧
      (s.manager.buddy.freePages = 0 → f = src) := by
  set s₁ : MemSys := { s with
    manager := { s.manager with cowFaults := wadd s.manager.cowFaults 1 }
    statics := { s.statics with cowFaults := wadd s.statics.cowFaults 1 } }
  have h₁ : s₁.buddySys.Inv := by
    refine h.of_eq rfl rfl rfl ?_
    dsimp only [buddySys, s₁]
  obtain ⟨r, m, st, halloc, hinv, hsome, hfresh⟩ := allocPage_ok h₁
  refine ⟨r.getD src, { s with
    manager := m
    statics := st
    owned := ⟨r.getD src, 0⟩ ::ₘ s.owned }, ?_, rfl, fun hfree ↦ ?_, fun hfree ↦ ?_⟩
  · simp only [step, cowFault]
    rw [show s.manager.cowFaults = s.manager.cowFaults from rfl, halloc]
    rfl
  · obtain ⟨f, rfl⟩ := Option.isSome_iff_exists.mp (hsome.mpr hfree)
    exact ⟨hinv, hfresh f rfl⟩
  · have hnone : r = none := by
      rw [← Option.not_isSome_iff_eq_none, hsome]
      exact not_not_intro hfree
    rw [hnone]
    rfl

/-! ## One owner -/

/-- A page is free when a fault is taken. -/
def FreePage (s : MemSys) : MemCall → Prop
  | .cowFault _ => s.manager.buddy.freePages ≠ 0
  | _ => True

instance (s : MemSys) : (call : MemCall) → Decidable (s.FreePage call)
  | .cowFault _ => inferInstanceAs (Decidable (_ ≠ _))
  | .registerRegion .. | .init | .allocPage | .allocHugePage | .freePage _ | .freeHugePage _ =>
    inferInstanceAs (Decidable True)

instance (guard : MemSys → MemCall → Prop) [∀ s call, Decidable (guard s call)] (s : MemSys)
    (call : MemCall) : Decidable ((machine guard).Legal s call) :=
  inferInstanceAs (Decidable (_ ∧ _))

/-- The page ranges owned are pairwise disjoint. -/
def OneOwner (s : MemSys) : Prop := s.owned.Pairwise fun a b ↦ Disjoint a.cells b.cells

theorem oneOwner_of_inv (h : s.buddySys.Inv) : s.OneOwner := by
  refine pairwise_disjoint_of_nodup_cover (Multiset.nodup_of_le ?_ h.nodup)
  rw [← h.cover_eq]
  exact Multiset.le_add_left _ _

theorem step_ok (h : s.buddySys.Inv) (hl : s.Legal call) (hfree : s.FreePage call) :
    ∃ r s', s.step call = .ok (r, s') ∧ s'.buddySys.Inv := by
  cases call with
  | registerRegion base len => exact ⟨none, registerRegion_ok h hl⟩
  | init => exact ⟨none, init_ok h⟩
  | allocPage =>
    obtain ⟨r, m, st, halloc, hinv, -⟩ := allocPage_ok h
    refine ⟨r, _, ?_, hinv⟩
    rw [step, halloc]
    rfl
  | allocHugePage => exact allocHugePage_ok h
  | cowFault src =>
    obtain ⟨f, s', hstep, -, hinv, -⟩ := cowFault_ok h src
    exact ⟨some f, s', hstep, (hinv hfree).1⟩
  | freePage frame => exact ⟨none, freePage_ok h hl⟩
  | freeHugePage frame => exact ⟨none, freeHugePage_ok h hl⟩

theorem inv_of_reachable (hs : (machine FreePage).system.Reachable s) : s.buddySys.Inv := by
  refine hs.invariant (P := fun s ↦ s.buddySys.Inv) (fun s hs ↦ ?_)
    (fun s call s' _ hinv hstep ↦ ?_)
  · rw [hs]
    exact BuddySys.inv_new
  · obtain ⟨⟨hl, hfree⟩, hnext⟩ := hstep
    obtain ⟨r, s'', hs'', hinv'⟩ := step_ok hinv hl hfree
    rw [show (machine FreePage).next s call = (s.step call).toOption.map Prod.snd from rfl,
      hs''] at hnext
    cases hnext
    exact hinv'

end MemSys

open MemSys in
/-- **A frame has one owner as long as memory lasts.** In every run that takes each copy-on-write
fault while a page is free, the page ranges owned are disjoint; and in every state of such a run, a
fault on an owned frame gives out a frame that nobody owns, and leaves every frame with one owner,
exactly when a page is free. -/
theorem frames_have_one_owner {s : MemSys} (hs : (machine FreePage).system.Reachable s) :
    s.OneOwner ∧ ∀ src, s.Owns src → ∃ f s', s.step (.cowFault src) = .ok (some f, s') ∧
      (¬s.Owns f ↔ s.manager.buddy.freePages ≠ 0) ∧
      (s'.OneOwner ↔ s.manager.buddy.freePages ≠ 0) := by
  have hinv := inv_of_reachable hs
  refine ⟨oneOwner_of_inv hinv, fun src hsrc ↦ ?_⟩
  obtain ⟨f, s', hstep, howned, hfree, hnone⟩ := cowFault_ok hinv src
  refine ⟨f, s', hstep, ⟨fun hfresh hzero ↦ ?_, fun hpos ↦ (hfree hpos).2⟩,
    fun hone hzero ↦ ?_, fun hpos ↦ oneOwner_of_inv (hfree hpos).1⟩
  · rw [hnone hzero] at hfresh
    exact hfresh hsrc
  · obtain ⟨b, hb, hsrcb⟩ := hsrc
    rw [OneOwner, howned, hnone hzero] at hone
    exact notMem_cells_of_pairwise_cons hone hb
      (mem_cells.mpr ⟨le_refl _, Nat.lt_succ_self _⟩) hsrcb

namespace MemSys

/-- One page registered, allocated, and faulted on. -/
def faultedWhenFull : List MemCall := [.registerRegion 4096 4096, .init, .allocPage, .cowFault 1]

/-- The page faulted on has two owners. -/
theorem cowFault_shares_frame :
    ∃ s, (machine fun _ _ ↦ True).system.Reachable s
      ∧ (machine fun _ _ ↦ True).run faultedWhenFull new = some s
      ∧ s.owned = {⟨1, 0⟩, ⟨1, 0⟩} ∧ ¬s.OneOwner := by
  have hsome : ((machine fun _ _ ↦ True).run faultedWhenFull new).isSome := by decide +kernel
  obtain ⟨s, hs⟩ := Option.isSome_iff_exists.mp hsome
  have howned : s.owned = {⟨1, 0⟩, ⟨1, 0⟩} := by
    have hrun : ((machine fun _ _ ↦ True).run faultedWhenFull new).map owned
        = some {⟨1, 0⟩, ⟨1, 0⟩} := by decide +kernel
    rw [hs] at hrun
    exact Option.some.inj hrun
  refine ⟨s, Machine.reachable_run (.init rfl) hs, hs, howned, fun hone ↦ ?_⟩
  rw [OneOwner, howned] at hone
  have hpage : 1 ∈ (⟨1, 0⟩ : Block).cells := by decide
  exact notMem_cells_of_pairwise_cons hone (Multiset.mem_singleton_self _) hpage hpage

/-- Two pages registered, one of them allocated. -/
def faultedInTime : List MemCall := [.registerRegion 4096 8192, .init, .allocPage]

/-- A fault on the page allocated gives out the other one. -/
theorem frames_have_one_owner_cowFault :
    ∃ s, (machine FreePage).run faultedInTime new = some s ∧ s.owned = {⟨2, 0⟩} ∧ s.OneOwner
      ∧ ∃ f s', s.step (.cowFault 2) = .ok (some f, s') ∧ ¬s.Owns f ∧ s'.OneOwner := by
  have hsome : ((machine FreePage).run faultedInTime new).isSome := by decide +kernel
  obtain ⟨s, hs⟩ := Option.isSome_iff_exists.mp hsome
  have hrun : ((machine FreePage).run faultedInTime new).map
      (fun s ↦ (s.owned, decide (s.manager.buddy.freePages ≠ 0))) = some ({⟨2, 0⟩}, true) := by
    decide +kernel
  rw [hs, Option.map_some, Option.some_inj, Prod.mk.injEq] at hrun
  have howns : s.Owns 2 := by
    rw [Owns, hrun.1]
    exact ⟨_, Multiset.mem_singleton_self _, by decide⟩
  have hfree := of_decide_eq_true hrun.2
  obtain ⟨hone, hfault⟩ := frames_have_one_owner (Machine.reachable_run (.init rfl) hs)
  obtain ⟨f, s', hstep, hfresh, hone'⟩ := hfault 2 howns
  exact ⟨s, hs, hrun.1, hone, f, s', hstep, hfresh.mpr hfree, hone'.mpr hfree⟩

end MemSys

end Zeroxos
