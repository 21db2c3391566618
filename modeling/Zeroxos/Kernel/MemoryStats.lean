import Zeroxos.Kernel.MemoryManager

/-!
# The statistics of the memory manager

What `MemoryManager::stats` reports is kept in counters of its own: the manager counts bytes and
huge pages, the buddy allocator under it counts pages. Each call moves the two in step, whatever
regions were registered, so that agreement is a matter of where they start. `init` starts the count
of free bytes at all the registered bytes, as if no page had been allocated yet, and the frame
allocator hook is installed before it.

## The condition

So the statistics agree in every run that calls `init` while no page is allocated, and an `init`
that comes later starts them apart (`stats_agree`). What the bytes of the registered pages add up to
has to be a word.

## What is counted

Regions may overlap here, since the counters do not see it: the proofs go through `Tally`, the part
of the invariant of the buddy allocator that counts pages with multiplicity. The frame that a fault
without a free page answers with is not counted as owned again, as no counter is moved for it
either.
-/

namespace Zeroxos

open Block BuddyAllocator MemoryManager

structure MemoryStats where
  totalBytes : ℕ
  freeBytes : ℕ
  pagesAllocated : ℕ
  cowFaults : ℕ
  hugePages : ℕ
deriving DecidableEq, Repr

/-- `MemoryManager::stats`, which reads the shared counters only. -/
def MemoryManager.stats (st : Statics) : MemoryStats where
  totalBytes := st.totalMemory
  freeBytes := st.freeMemory
  pagesAllocated := st.pagesAllocated
  cowFaults := st.cowFaults
  hugePages := st.hugePages

/-! ## The system -/

/-- The manager with its clients, and whether `init` was called. -/
structure StatSys extends MemSys where
  ready : Bool
deriving DecidableEq

namespace StatSys

/-- Before the first call. -/
def new : StatSys := ⟨MemSys.new, false⟩

/-- What is owned after a call: a fault that took no page gives nobody a page to own. -/
def ownedAfter (s : StatSys) (m : MemSys) : MemCall → Multiset Block
  | .cowFault _ => if m.manager.buddy = s.manager.buddy then s.owned else m.owned
  | _ => m.owned

/-- Whether `init` was called after a call. -/
def readyAfter (s : StatSys) : MemCall → Bool
  | .init => true
  | _ => s.ready

/-- One call, `none` when it panics. -/
def next (s : StatSys) (call : MemCall) : Option StatSys :=
  (s.step call).toOption.map fun (_, m) ↦
    ⟨{ m with owned := s.ownedAfter m call }, s.readyAfter call⟩

/-- Regions are registered before `init`, which is called once, and what is freed is owned. -/
def Legal (s : StatSys) : MemCall → Prop
  | .registerRegion base len => s.ready = false ∧ base < wordSize ∧ len < wordSize
  | .init => s.ready = false
  | .freePage frame => (⟨frame, 0⟩ : Block) ∈ s.owned
  | .freeHugePage frame => (⟨frame, maxOrder⟩ : Block) ∈ s.owned
  | .allocPage | .allocHugePage | .cowFault _ => True

/-- The registered bytes are a word, and `init` is called while no page is allocated. -/
def StartsEven (s : StatSys) : MemCall → Prop
  | .registerRegion _ len => pageSize * (s.buddySys.registeredPages + len / pageSize) < wordSize
  | .init => s.owned = 0
  | _ => True

instance (s : StatSys) : (call : MemCall) → Decidable (s.Legal call)
  | .registerRegion _ _ => inferInstanceAs (Decidable (_ ∧ _))
  | .init => inferInstanceAs (Decidable (_ = _))
  | .freePage _ | .freeHugePage _ => inferInstanceAs (Decidable (_ ∈ _))
  | .allocPage | .allocHugePage | .cowFault _ => inferInstanceAs (Decidable True)

instance (s : StatSys) : (call : MemCall) → Decidable (s.StartsEven call)
  | .registerRegion _ _ => inferInstanceAs (Decidable (_ < _))
  | .init => inferInstanceAs (Decidable (_ = _))
  | .allocPage | .allocHugePage | .cowFault _ | .freePage _ | .freeHugePage _ =>
    inferInstanceAs (Decidable True)

/-- The manager and its contract, and `guard` on top of it. -/
def machine (guard : StatSys → MemCall → Prop) : Machine StatSys MemCall where
  init s := s = new
  Legal s call := s.Legal call ∧ guard s call
  next := next

instance (guard : StatSys → MemCall → Prop) [∀ s call, Decidable (guard s call)] (s : StatSys)
    (call : MemCall) : Decidable ((machine guard).Legal s call) :=
  inferInstanceAs (Decidable (_ ∧ _))

/-- How many huge pages are outstanding. -/
def hugeOwned (s : StatSys) : ℕ := s.owned.countP fun b ↦ b.order = maxOrder

/-- **The statistics agree with the allocator**, as numbers. -/
structure Agree (s : StatSys) : Prop where
  totalBytes : (stats s.statics).totalBytes = pageSize * s.manager.buddy.totalPages
  freeBytes : (stats s.statics).freeBytes = pageSize * s.manager.buddy.freePages
  freePages_le : s.manager.buddy.freePages ≤ s.manager.buddy.totalPages
  pagesAllocated :
    (stats s.statics).pagesAllocated = s.manager.buddy.totalPages - s.manager.buddy.freePages
  hugePages : (stats s.statics).hugePages = s.hugeOwned

end StatSys

/-! ## The counters of the buddy allocator -/

namespace BuddySys

variable {s s' : BuddySys} {k : ℕ} {f : PageFrame}

theorem Tally.freePages_add (h : s.Tally) :
    s.buddy.freePages + s.statics.pagesAllocated = s.buddy.totalPages := by
  rw [h.freePages, h.pagesAllocated, h.totalPages]
  exact h.card_add

theorem Tally.freePages_le (h : s.Tally) : s.buddy.freePages ≤ s.registeredPages := by
  have hadd := h.freePages_add
  rw [h.totalPages, card_registeredCells] at hadd
  omega

theorem Tally.totalPages_eq (h : s.Tally) (h' : s'.Tally)
    (hregistered : s'.registered = s.registered) :
    s'.buddy.totalPages = s.buddy.totalPages := by
  rw [h.totalPages, h'.totalPages, registeredCells, registeredCells, hregistered]

theorem Tally.freePages_alloc (h : s.Tally) (h' : s'.Tally)
    (hregistered : s'.registered = s.registered)
    (hout : s'.outstanding = ⟨f, k⟩ ::ₘ s.outstanding) :
    s'.buddy.freePages + 2 ^ k = s.buddy.freePages := by
  have htotal := h.totalPages_eq h' hregistered
  have hadd := h.freePages_add
  have hadd' := h'.freePages_add
  have hpages : s'.statics.pagesAllocated = 2 ^ k + s.statics.pagesAllocated := by
    rw [h'.pagesAllocated, hout, cover_cons, Multiset.card_add, Finset.card_val, card_cells,
      h.pagesAllocated]
  omega

theorem Tally.freePages_free (h : s.Tally) (h' : s'.Tally)
    (hregistered : s'.registered = s.registered)
    (hmem : (⟨f, k⟩ : Block) ∈ s.outstanding) (hout : s'.outstanding = s.outstanding.erase ⟨f, k⟩) :
    s'.buddy.freePages = s.buddy.freePages + 2 ^ k := by
  have htotal := h.totalPages_eq h' hregistered
  have hadd := h.freePages_add
  have hadd' := h'.freePages_add
  have hpages : s.statics.pagesAllocated = 2 ^ k + s'.statics.pagesAllocated := by
    rw [h.pagesAllocated, cover_erase hmem, Multiset.card_add, Finset.card_val, card_cells,
      h'.pagesAllocated, hout]
  omega

end BuddySys

namespace BuddyAllocator

variable {b b' : BuddyAllocator} {st st' : Statics} {k : ℕ} {f : PageFrame}

theorem alloc_statics {r : Option PageFrame} (h : alloc k b st = .ok (r, b', st')) :
    st' = { st with pagesAllocated := st'.pagesAllocated } := by
  rw [alloc] at h
  split at h
  · cases h
    rfl
  · split at h
    · cases h
    · split at h
      · cases h
      · split at h
        · cases h
        · cases h
          rfl

theorem alloc_none (h : alloc k b st = .ok (none, b', st')) : b' = b ∧ st' = st := by
  rw [alloc] at h
  split at h
  · cases h
    exact ⟨rfl, rfl⟩
  · split at h
    · cases h
    · split at h
      · cases h
      · split at h <;> cases h

theorem free_statics (h : free f k b st = .ok (b', st')) :
    st' = { st with pagesAllocated := st'.pagesAllocated } := by
  rw [free] at h
  split at h
  split at h
  · cases h
  · cases h
    rfl

end BuddyAllocator

namespace StatSys

variable {s s' : StatSys} {call : MemCall} {k : ℕ} {f : PageFrame}

/-! ## The invariant -/

/-- **The invariant**, with nothing to say about the bytes before `init`. -/
structure Inv (s : StatSys) : Prop where
  tally : s.buddySys.Tally
  bytes : pageSize * s.buddySys.registeredPages < wordSize
  hugePages : s.statics.hugePages = s.hugeOwned
  memory : s.ready = true → s.statics.totalMemory = pageSize * s.manager.buddy.totalPages ∧
    s.statics.freeMemory = pageSize * s.manager.buddy.freePages

theorem inv_new : new.Inv where
  tally := BuddySys.inv_new.tally
  bytes := by decide
  hugePages := rfl
  memory := nofun

theorem Inv.agree (h : s.Inv) (hready : s.ready = true) : s.Agree := by
  have hadd : s.manager.buddy.freePages + s.statics.pagesAllocated = s.manager.buddy.totalPages :=
    h.tally.freePages_add
  exact
    { totalBytes := (h.memory hready).1
      freeBytes := (h.memory hready).2
      freePages_le := by omega
      pagesAllocated := by
        show s.statics.pagesAllocated = _
        omega
      hugePages := h.hugePages }

theorem hugeOwned_lt (h : s.buddySys.Tally) : s.hugeOwned < wordSize := by
  have hcard : s.hugeOwned ≤ (cover cells s.owned).card := by
    refine (Multiset.countP_le_card _ _).trans ?_
    rw [card_cover]
    refine le_trans ?_ (Multiset.card_nsmul_le_sum (a := 1) fun n hn ↦ ?_)
    · rw [Multiset.card_map, smul_eq_mul, mul_one]
    · obtain ⟨b, -, rfl⟩ := Multiset.mem_map.mp hn
      rw [card_cells]
      exact Nat.two_pow_pos _
  have hadd := h.card_add
  have hlt := h.card_lt
  exact lt_of_le_of_lt hcard (by rw [show s.owned = s.buddySys.outstanding from rfl]; omega)

/-- How many huge pages one block is. -/
def hugeCount (k : ℕ) : ℕ := if k = maxOrder then 1 else 0

theorem hugeOwned_cons (h : s'.owned = ⟨f, k⟩ ::ₘ s.owned) :
    s'.hugeOwned = s.hugeOwned + hugeCount k := by
  rw [hugeOwned, h, Multiset.countP_cons, hugeCount]
  rfl

theorem hugeOwned_erase (hmem : (⟨f, k⟩ : Block) ∈ s.owned) (h : s'.owned = s.owned.erase ⟨f, k⟩) :
    s.hugeOwned = s'.hugeOwned + hugeCount k := by
  refine hugeOwned_cons (f := f) ?_
  rw [h, Multiset.cons_erase hmem]

theorem Inv.alloc {bytes pages huge : ℕ} {b : BuddyAllocator} (h : s.Inv)
    (hk : pageSize * 2 ^ k = bytes)
    (htally : ({ s.buddySys with
      buddy := b
      statics := { s.statics with pagesAllocated := pages }
      outstanding := ⟨f, k⟩ ::ₘ s.owned } : BuddySys).Tally)
    (hbuddy : s'.manager.buddy = b) (hready : s'.ready = s.ready)
    (hregistered : s'.registered = s.registered) (howned : s'.owned = ⟨f, k⟩ ::ₘ s.owned)
    (hstatics : s'.statics = { s.statics with
      pagesAllocated := pages
      freeMemory := wsub s.statics.freeMemory bytes
      hugePages := huge })
    (hhuge : huge = if k = maxOrder then wadd s.statics.hugePages 1 else s.statics.hugePages) :
    s'.Inv := by
  replace htally : s'.buddySys.Tally := by
    refine htally.of_eq hbuddy hregistered howned ?_
    rw [MemSys.buddySys, hstatics]
  have hpages : s'.manager.buddy.freePages + 2 ^ k = s.manager.buddy.freePages :=
    h.tally.freePages_alloc htally hregistered howned
  have htotals : s'.manager.buddy.totalPages = s.manager.buddy.totalPages :=
    h.tally.totalPages_eq htally hregistered
  have hlt := hugeOwned_lt htally
  rw [hugeOwned_cons howned] at hlt
  refine ⟨htally, ?_, ?_, fun hr ↦ ?_⟩
  · rw [BuddySys.registeredPages, show s'.buddySys.registered = _ from hregistered]
    exact h.bytes
  · rw [hstatics, hhuge, h.hugePages, hugeOwned_cons howned]
    rw [hugeCount] at hlt ⊢
    split_ifs at hlt ⊢
    · exact wadd_of_lt hlt
    · rfl
  · obtain ⟨hmem, hmemfree⟩ := h.memory (hready ▸ hr)
    refine ⟨by rw [hstatics, htotals, ← hmem], ?_⟩
    have hbytes : pageSize * s.manager.buddy.freePages < wordSize :=
      lt_of_le_of_lt (Nat.mul_le_mul_left pageSize h.tally.freePages_le) h.bytes
    rw [hstatics, hmemfree, ← hk, wsub_of_le ?_ hbytes, ← hpages, Nat.mul_add, Nat.add_sub_cancel]
    exact Nat.mul_le_mul_left _ (Nat.le.intro ((Nat.add_comm _ _).trans hpages))

theorem Inv.free {bytes pages huge : ℕ} {b : BuddyAllocator} (h : s.Inv)
    (hk : pageSize * 2 ^ k = bytes) (hmem : (⟨f, k⟩ : Block) ∈ s.owned)
    (htally : ({ s.buddySys with
      buddy := b
      statics := { s.statics with pagesAllocated := pages }
      outstanding := s.owned.erase ⟨f, k⟩ } : BuddySys).Tally)
    (hbuddy : s'.manager.buddy = b) (hready : s'.ready = s.ready)
    (hregistered : s'.registered = s.registered) (howned : s'.owned = s.owned.erase ⟨f, k⟩)
    (hstatics : s'.statics = { s.statics with
      pagesAllocated := pages
      freeMemory := wadd s.statics.freeMemory bytes
      hugePages := huge })
    (hhuge : huge = if k = maxOrder then wsub s.statics.hugePages 1 else s.statics.hugePages) :
    s'.Inv := by
  replace htally : s'.buddySys.Tally := by
    refine htally.of_eq hbuddy hregistered howned ?_
    rw [MemSys.buddySys, hstatics]
  have hpages : s'.manager.buddy.freePages = s.manager.buddy.freePages + 2 ^ k :=
    h.tally.freePages_free htally hregistered hmem howned
  have htotals : s'.manager.buddy.totalPages = s.manager.buddy.totalPages :=
    h.tally.totalPages_eq htally hregistered
  have hlt := hugeOwned_lt h.tally
  rw [hugeOwned_erase hmem howned] at hlt
  have hbytes : pageSize * s'.buddySys.registeredPages < wordSize := by
    rw [BuddySys.registeredPages, show s'.buddySys.registered = _ from hregistered]
    exact h.bytes
  refine ⟨htally, hbytes, ?_, fun hr ↦ ?_⟩
  · rw [hstatics, hhuge, h.hugePages, hugeOwned_erase hmem howned]
    rw [hugeCount] at hlt ⊢
    split_ifs at hlt ⊢
    · rw [wsub_of_le (Nat.le_add_left _ _) hlt, Nat.add_sub_cancel]
    · rfl
  · obtain ⟨hmem, hmemfree⟩ := h.memory (hready ▸ hr)
    refine ⟨by rw [hstatics, htotals, ← hmem], ?_⟩
    have hle : s'.manager.buddy.freePages ≤ s'.buddySys.registeredPages := htally.freePages_le
    have hlt := lt_of_le_of_lt (Nat.mul_le_mul_left pageSize hle) hbytes
    rw [hpages, Nat.mul_add] at hlt ⊢
    rw [hstatics, hmemfree, ← hk, wadd_of_lt hlt]

theorem Inv.same (h : s.Inv) (hbuddy : s'.manager.buddy = s.manager.buddy)
    (hready : s'.ready = s.ready) (hregistered : s'.registered = s.registered)
    (howned : s'.owned = s.owned)
    (hstatics : s'.statics = { s.statics with cowFaults := s'.statics.cowFaults }) : s'.Inv where
  tally := h.tally.of_eq hbuddy hregistered howned
    (by rw [show s'.buddySys.statics = _ from hstatics]; rfl)
  bytes := by
    rw [BuddySys.registeredPages, show s'.buddySys.registered = _ from hregistered]
    exact h.bytes
  hugePages := by
    rw [hstatics, hugeOwned, howned]
    exact h.hugePages
  memory := by
    rw [hready, hbuddy, hstatics]
    exact h.memory

theorem pageSize_mul_zero : pageSize * 2 ^ 0 = pageSize := by rw [pow_zero, mul_one]

theorem pageSize_mul_maxOrder : pageSize * 2 ^ maxOrder = hugePage2M := by
  norm_num [pageSize, maxOrder, hugePage2M]

theorem zero_ne_maxOrder : 0 ≠ maxOrder := by decide

/-! ## Every call -/

theorem next_of_step {r : Option PageFrame} {m : MemSys} (h : s.step call = .ok (r, m)) :
    s.next call
      = some ⟨{ m with owned := s.ownedAfter m call }, s.readyAfter call⟩ := by
  rw [next, h]
  rfl

theorem next_registerRegion (h : s.Inv) {base len : ℕ} (hl : s.Legal (.registerRegion base len))
    (hbytes : s.StartsEven (.registerRegion base len)) :
    ∃ s', s.next (.registerRegion base len) = some s' ∧ s'.Inv := by
  obtain ⟨hready, hbase, hlen⟩ := hl
  have hnotready : s.readyAfter (.registerRegion base len) = true → False := by
    rw [show s.readyAfter _ = s.ready from rfl, hready]
    nofun
  by_cases hpages : 0 < len / pageSize
  · have hword : base / pageSize + len / pageSize < wordSize := by
      rw [wordSize, pageSize] at *
      omega
    have hcard : s.buddySys.registeredCells.card + len / pageSize < wordSize := by
      rw [BuddySys.card_registeredCells]
      refine lt_of_le_of_lt ?_ hbytes
      exact Nat.le_mul_of_pos_left _ (by norm_num [pageSize])
    obtain ⟨b, hadd, htally⟩ := h.tally.addRegion_ok hword hcard
    have hadd' : addRegion (base / pageSize) (len / pageSize) s.manager.buddy = .ok b := hadd
    refine ⟨_, next_of_step (r := none) (m := { s.toMemSys with
      manager := { s.manager with buddy := b }
      registered := ⟨base / pageSize, len / pageSize⟩ :: s.registered }) ?_, ?_⟩
    · simp only [MemSys.step, registerRegion, if_pos hpages, hadd', Except.map]
    · refine ⟨htally, ?_, h.hugePages, fun hr ↦ (hnotready hr).elim⟩
      show pageSize * (List.map Span.len (_ :: s.registered)).sum < wordSize
      rw [List.map_cons, List.sum_cons, Nat.add_comm]
      exact hbytes
  · refine ⟨_, next_of_step (r := none) (m := s.toMemSys) ?_, ?_⟩
    · simp only [MemSys.step, registerRegion, if_neg hpages, Except.map]
    · exact ⟨h.tally, h.bytes, h.hugePages, fun hr ↦ (hnotready hr).elim⟩

theorem owned_eq_zero_iff (h : s.buddySys.Tally) :
    s.owned = 0 ↔ s.manager.buddy.freePages = s.manager.buddy.totalPages := by
  have hadd : s.manager.buddy.freePages + s.statics.pagesAllocated = s.manager.buddy.totalPages :=
    h.freePages_add
  have hpages : s.statics.pagesAllocated = (cover cells s.owned).card := h.pagesAllocated
  constructor
  · intro hzero
    rw [hzero, cover_zero, Multiset.card_zero] at hpages
    omega
  · intro hfree
    rw [Multiset.eq_zero_iff_forall_notMem]
    intro b hb
    have hmem : b.base ∈ cover cells s.owned := mem_cover.mpr ⟨b, hb, b.base_mem_cells⟩
    have hpos := Multiset.card_pos_iff_exists_mem.mpr ⟨_, hmem⟩
    omega

theorem totalPages_eq_registeredPages (h : s.buddySys.Tally) :
    s.manager.buddy.totalPages = s.buddySys.registeredPages :=
  h.totalPages.trans s.buddySys.card_registeredCells

/-- `init` with no page registered makes pages up, and none of them is allocated. -/
theorem next_init_madeUp (h : s.Inv) (hnone : s.manager.buddy.totalPages = 0) :
    s.owned = 0 ∧ ∃ s', s.next .init = some s' ∧ s'.Inv := by
  have htotal := totalPages_eq_registeredPages h.tally
  have hcard : s.buddySys.registeredCells.card + fakePages < wordSize := by
    rw [BuddySys.card_registeredCells, ← htotal, hnone]
    norm_num [fakePages, pageSize, wordSize]
  have hword : 0 + fakePages < wordSize := by norm_num [fakePages, pageSize, wordSize]
  obtain ⟨b, hadd, htally⟩ := h.tally.addRegion_ok hword hcard
  have hadd' : addRegion 0 fakePages s.manager.buddy = .ok b := hadd
  have howned : s.owned = 0 := by
    rw [owned_eq_zero_iff h.tally, hnone, ← Nat.le_zero, ← hnone, htotal]
    exact h.tally.freePages_le
  set m : MemSys := { s.toMemSys with
    manager := { s.manager with buddy := b }
    statics := { s.statics with
      totalMemory := b.totalPages * pageSize % wordSize
      freeMemory := b.totalPages * pageSize % wordSize }
    registered := ⟨0, fakePages⟩ :: s.registered } with hm
  have hpages : m.buddySys.registeredPages = fakePages := by
    show (List.map Span.len (_ :: s.registered)).sum = fakePages
    rw [List.map_cons, List.sum_cons, show (List.map Span.len s.registered).sum = 0 from
      htotal.symm.trans hnone]
    rfl
  have htally' : m.buddySys.Tally := htally.of_eq rfl rfl rfl rfl
  have htotal' : b.totalPages = fakePages :=
    htally'.totalPages.trans ((BuddySys.card_registeredCells _).trans hpages)
  have hfree' : b.freePages = fakePages := by
    have hadd : b.freePages + s.statics.pagesAllocated = b.totalPages := htally'.freePages_add
    have hallocated : s.statics.pagesAllocated = (cover cells s.owned).card :=
      h.tally.pagesAllocated
    rw [howned, cover_zero, Multiset.card_zero] at hallocated
    omega
  refine ⟨howned, _, next_of_step (r := none) (m := m) ?_, htally', ?_, h.hugePages,
    fun _ ↦ ⟨?_, ?_⟩⟩
  · simp only [MemSys.step, MemoryManager.init, if_pos hnone, hadd', Except.map, hm]
  · show pageSize * m.buddySys.registeredPages < wordSize
    rw [hpages]
    norm_num [fakePages, pageSize, wordSize]
  · show b.totalPages * pageSize % wordSize = pageSize * b.totalPages
    rw [htotal']
    norm_num [fakePages, pageSize, wordSize]
  · show b.totalPages * pageSize % wordSize = pageSize * b.freePages
    rw [htotal', hfree']
    norm_num [fakePages, pageSize, wordSize]

/-- `init` starts the statistics right exactly when no page is allocated. -/
theorem next_init (h : s.Inv) :
    ∃ s', s.next .init = some s' ∧ (s.owned = 0 → s'.Inv) ∧ (s'.Agree → s.owned = 0) := by
  by_cases hnone : s.manager.buddy.totalPages = 0
  · obtain ⟨howned, s', hnext, hinv⟩ := next_init_madeUp h hnone
    exact ⟨s', hnext, fun _ ↦ hinv, fun _ ↦ howned⟩
  have hbytes : s.manager.buddy.totalPages * pageSize % wordSize
      = pageSize * s.manager.buddy.totalPages := by
    rw [Nat.mul_comm, Nat.mod_eq_of_lt]
    rw [totalPages_eq_registeredPages h.tally]
    exact h.bytes
  refine ⟨_, next_of_step (r := none) (m := { s.toMemSys with
    statics := { s.statics with
      totalMemory := s.manager.buddy.totalPages * pageSize % wordSize
      freeMemory := s.manager.buddy.totalPages * pageSize % wordSize } }) ?_, fun howned ↦ ?_,
    fun hagree ↦ ?_⟩
  · simp only [MemSys.step, MemoryManager.init, if_neg hnone, Except.map]
  · refine ⟨h.tally.of_eq rfl rfl rfl rfl, h.bytes, h.hugePages, fun _ ↦ ⟨hbytes, ?_⟩⟩
    rw [(owned_eq_zero_iff h.tally).mp howned]
    exact hbytes
  · rw [owned_eq_zero_iff h.tally]
    have hfree := hbytes.symm.trans hagree.freeBytes
    exact (Nat.eq_of_mul_eq_mul_left (by norm_num [pageSize]) hfree).symm

theorem alloc_cases (h : s.Inv) (k : ℕ) :
    alloc k s.manager.buddy s.statics = .ok (none, s.manager.buddy, s.statics) ∨
    ∃ f b pages, alloc k s.manager.buddy s.statics
        = .ok (some f, b, { s.statics with pagesAllocated := pages }) ∧
      ({ s.buddySys with
          buddy := b
          statics := { s.statics with pagesAllocated := pages }
          outstanding := ⟨f, k⟩ ::ₘ s.owned } : BuddySys).Tally := by
  obtain ⟨r, b, st, halloc, htally, -⟩ := h.tally.alloc_ok k
  have halloc' : alloc k s.manager.buddy s.statics = .ok (r, b, st) := halloc
  cases r with
  | none =>
    obtain ⟨rfl, rfl⟩ := alloc_none halloc'
    exact .inl halloc'
  | some f =>
    have hst := alloc_statics halloc'
    rw [hst] at halloc' htally
    exact .inr ⟨f, b, _, halloc', htally⟩

theorem next_allocPage (h : s.Inv) : ∃ s', s.next .allocPage = some s' ∧ s'.Inv := by
  obtain hnone | ⟨f, b, pages, hsome, htally⟩ := alloc_cases h 0
  · refine ⟨_, next_of_step (r := none) (m := s.toMemSys) ?_, h.same rfl rfl rfl rfl rfl⟩
    simp only [MemSys.step, allocPage, hnone, Except.map]
    rfl
  · refine ⟨_, next_of_step (r := some f) (m := { s.toMemSys with
      manager := { s.manager with buddy := b }
      statics := { s.statics with
        pagesAllocated := pages
        freeMemory := wsub s.statics.freeMemory pageSize }
      owned := ⟨f, 0⟩ ::ₘ s.owned }) ?_, ?_⟩
    · simp only [MemSys.step, allocPage, hsome, Except.map]
      rfl
    · exact h.alloc pageSize_mul_zero htally rfl rfl rfl rfl rfl (if_neg zero_ne_maxOrder).symm

theorem next_allocHugePage (h : s.Inv) : ∃ s', s.next .allocHugePage = some s' ∧ s'.Inv := by
  obtain hnone | ⟨f, b, pages, hsome, htally⟩ := alloc_cases h maxOrder
  · refine ⟨_, next_of_step (r := none) (m := s.toMemSys) ?_, h.same rfl rfl rfl rfl rfl⟩
    simp only [MemSys.step, allocHugePage, hnone, Except.map]
    rfl
  · refine ⟨_, next_of_step (r := some f) (m := { s.toMemSys with
      manager := { s.manager with buddy := b }
      statics := { s.statics with
        pagesAllocated := pages
        freeMemory := wsub s.statics.freeMemory hugePage2M
        hugePages := wadd s.statics.hugePages 1 }
      owned := ⟨f, maxOrder⟩ ::ₘ s.owned }) ?_, ?_⟩
    · simp only [MemSys.step, allocHugePage, hsome, Except.map]
      rfl
    · exact h.alloc pageSize_mul_maxOrder htally rfl rfl rfl rfl rfl (if_pos rfl).symm

/-- A fault that finds a page takes it; one that does not is counted, and that is all. -/
theorem next_cowFault (h : s.Inv) (src : PageFrame) :
    ∃ s', s.next (.cowFault src) = some s' ∧ s'.Inv := by
  set s₁ : StatSys := { s with
    manager := { s.manager with cowFaults := wadd s.manager.cowFaults 1 }
    statics := { s.statics with cowFaults := wadd s.statics.cowFaults 1 } } with hs₁
  have h₁ : s₁.Inv := h.same rfl rfl rfl rfl rfl
  obtain hnone | ⟨f, b, pages, hsome, htally⟩ := alloc_cases h₁ 0
  · refine ⟨_, next_of_step (r := some src)
      (m := { s₁.toMemSys with owned := ⟨src, 0⟩ ::ₘ s.owned }) ?_,
      h.same rfl rfl rfl (if_pos rfl) rfl⟩
    simp only [MemSys.step, cowFault, allocPage]
    rw [show alloc 0 _ _ = _ from hnone]
    rfl
  · have hpages : b.freePages + 2 ^ 0 = s.manager.buddy.freePages :=
      h₁.tally.freePages_alloc htally rfl rfl
    have hne : b ≠ s.manager.buddy := by
      rintro rfl
      omega
    refine ⟨_, next_of_step (r := some f) (m := { s₁.toMemSys with
      manager := { s₁.manager with buddy := b }
      statics := { s₁.statics with
        pagesAllocated := pages
        freeMemory := wsub s.statics.freeMemory pageSize }
      owned := ⟨f, 0⟩ ::ₘ s.owned }) ?_, ?_⟩
    · simp only [MemSys.step, cowFault, allocPage]
      rw [show alloc 0 _ _ = _ from hsome]
      rfl
    · exact h₁.alloc pageSize_mul_zero htally rfl rfl rfl (if_neg hne) rfl
        (if_neg zero_ne_maxOrder).symm

theorem free_ok (h : s.Inv) (hmem : (⟨f, k⟩ : Block) ∈ s.owned) :
    ∃ b pages, free f k s.manager.buddy s.statics
        = .ok (b, { s.statics with pagesAllocated := pages }) ∧
      ({ s.buddySys with
          buddy := b
          statics := { s.statics with pagesAllocated := pages }
          outstanding := s.owned.erase ⟨f, k⟩ } : BuddySys).Tally := by
  obtain ⟨b, st, hfree, htally⟩ := h.tally.free_ok hmem
  have hfree' : free f k s.manager.buddy s.statics = .ok (b, st) := hfree
  have hst := free_statics hfree'
  rw [hst] at hfree' htally
  exact ⟨b, _, hfree', htally⟩

theorem next_freePage (h : s.Inv) (hmem : (⟨f, 0⟩ : Block) ∈ s.owned) :
    ∃ s', s.next (.freePage f) = some s' ∧ s'.Inv := by
  obtain ⟨b, pages, hfree, htally⟩ := free_ok h hmem
  refine ⟨_, next_of_step (r := none) (m := { s.toMemSys with
    manager := { s.manager with buddy := b }
    statics := { s.statics with
      pagesAllocated := pages
      freeMemory := wadd s.statics.freeMemory pageSize }
    owned := s.owned.erase ⟨f, 0⟩ }) ?_, ?_⟩
  · simp only [MemSys.step, freePage, hfree, Except.map]
  · exact h.free pageSize_mul_zero hmem htally rfl rfl rfl rfl rfl (if_neg zero_ne_maxOrder).symm

theorem next_freeHugePage (h : s.Inv) (hmem : (⟨f, maxOrder⟩ : Block) ∈ s.owned) :
    ∃ s', s.next (.freeHugePage f) = some s' ∧ s'.Inv := by
  obtain ⟨b, pages, hfree, htally⟩ := free_ok h hmem
  refine ⟨_, next_of_step (r := none) (m := { s.toMemSys with
    manager := { s.manager with buddy := b }
    statics := { s.statics with
      pagesAllocated := pages
      freeMemory := wadd s.statics.freeMemory hugePage2M
      hugePages := wsub s.statics.hugePages 1 }
    owned := s.owned.erase ⟨f, maxOrder⟩ }) ?_, ?_⟩
  · simp only [MemSys.step, freeHugePage, hfree, Except.map]
  · exact h.free pageSize_mul_maxOrder hmem htally rfl rfl rfl rfl rfl (if_pos rfl).symm

/-- **One call**: it returns, and the statistics stay in step. -/
theorem Inv.next_ok (h : s.Inv) (hl : s.Legal call) (heven : s.StartsEven call) :
    ∃ s', s.next call = some s' ∧ s'.Inv := by
  cases call with
  | registerRegion base len => exact next_registerRegion h hl heven
  | init =>
    obtain ⟨s', hnext, hinv, -⟩ := next_init h
    exact ⟨s', hnext, hinv heven⟩
  | allocPage => exact next_allocPage h
  | allocHugePage => exact next_allocHugePage h
  | cowFault src => exact next_cowFault h src
  | freePage frame => exact next_freePage h hl
  | freeHugePage frame => exact next_freeHugePage h hl

theorem inv_of_reachable (hs : (machine StartsEven).system.Reachable s) : s.Inv := by
  refine hs.invariant (fun s hinit ↦ ?_) fun s call s' _ h hstep ↦ ?_
  · rw [show s = new from hinit]
    exact inv_new
  · obtain ⟨⟨hl, heven⟩, hnext⟩ := hstep
    obtain ⟨s'', hs'', hinv⟩ := h.next_ok hl heven
    rw [show (machine StartsEven).next s call = s.next call from rfl, hs''] at hnext
    rwa [← Option.some.inj hnext]

/-- **The statistics agree with the allocator** after `init` in every run that calls it while no
page is allocated and whose registered bytes are a word. An `init` that comes while a page is
allocated starts the statistics apart. -/
theorem stats_agree (hs : (machine StartsEven).system.Reachable s) :
    (s.ready = true → s.Agree) ∧ ∃ s', s.next .init = some s' ∧ (s'.Agree ↔ s.owned = 0) := by
  have h := inv_of_reachable hs
  obtain ⟨s', hnext, hinv, hagree⟩ := next_init h
  have hready : s'.ready = true := by
    obtain ⟨p, -, rfl⟩ := Option.map_eq_some_iff.mp hnext
    rfl
  exact ⟨h.agree, s', hnext, hagree, fun howned ↦ (hinv howned).agree hready⟩

/-- Three pages registered; the page that was allocated, faulted on and freed is free again. -/
theorem stats_agree_cowFault :
    Agree (((machine StartsEven).run
      [.registerRegion 4096 12288, .init, .allocPage, .cowFault 1, .freePage 1] new).get
      (by decide +kernel)) :=
  (stats_agree (Machine.reachable_run (.init rfl) (Option.some_get _).symm)).1 (by decide +kernel)

/-- Two pages registered, one of them allocated before `init`. -/
theorem init_after_allocPage : ∃ s, (machine fun _ _ ↦ True).system.Reachable s ∧
    s.ready = true ∧ ¬ s.Agree := by
  have hsome : ((machine fun _ _ ↦ True).run
      [.registerRegion 4096 8192, .allocPage, .init] new).isSome := by decide +kernel
  obtain ⟨s, hs⟩ := Option.isSome_iff_exists.mp hsome
  have hread : ((machine fun _ _ ↦ True).run
      [.registerRegion 4096 8192, .allocPage, .init] new).map
        (fun s ↦ (s.ready, s.statics.freeMemory, s.manager.buddy.freePages))
      = some (true, 8192, 1) := by decide +kernel
  rw [hs] at hread
  have hvalues := Option.some.inj hread
  refine ⟨s, Machine.reachable_run (.init rfl) hs, congrArg Prod.fst hvalues, fun hagree ↦ ?_⟩
  have hfree : s.statics.freeMemory = 8192 := congrArg (fun v ↦ v.2.1) hvalues
  have hpages : s.manager.buddy.freePages = 1 := congrArg (fun v ↦ v.2.2) hvalues
  have hbytes : s.statics.freeMemory = pageSize * s.manager.buddy.freePages := hagree.freeBytes
  rw [hfree, hpages] at hbytes
  exact absurd hbytes (by decide)

end StatSys

end Zeroxos
