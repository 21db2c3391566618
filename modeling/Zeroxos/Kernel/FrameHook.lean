import Zeroxos.Kernel.MemoryManager
import Zeroxos.Library.ByteMem

/-!
# The frame hook of the page tables

The page-table code of the HAL takes its frames from `GlobalFrames`, which calls a function the boot
code registers: `alloc_frame`, over the kernel's memory manager. On the way a frame is a byte
address in a word, with zero for a failure, and page 0 has the address zero. When the buddy
allocator answers with page 0, the hook reports that it is out of frames, and the page stays
allocated with nobody to free it.

## The condition

What the hook is for is `HookKept`: it answers with a page that has just become outstanding, or it
reports that no page is free and leaves everything as it was. It does so exactly when the next page
of the allocator is not page 0 (`frame_hook_iff`). Which page that is depends on the free lists: it
is the last entry of the first list that has one.

## Addresses

A page is a number and a frame is an address, and the product has to be a word. Regions here end at
or below `2 ^ 64` bytes, so that pages are below `2 ^ 52`.
-/

namespace Zeroxos

open Block BuddyAllocator BuddySys

/-! ## The two ends of the hook -/

/-- `alloc_frame`, on the memory manager of `KERNEL` and the counters. -/
def allocFrame : MemoryManager × Statics → Except Panic (ℕ × MemoryManager × Statics)
  | (m, st) =>
    (m.allocPage st).map fun (r, m, st) ↦
      (match r with
        | some frame => frame * 4096 % wordSize
        | none => 0,
        m, st)

def freeFrame (phys : ℕ) : MemoryManager × Statics → Except Panic (MemoryManager × Statics)
  | (m, st) => m.freePage (phys / 4096) st

/-- `write_bytes(a, 0, n)` -/
def ByteMem.zeroBytes (mem : ByteMem) (a : Word) (n : ℕ) : ByteMem :=
  fun x ↦ if (x - a).toNat < n then 0 else mem x

namespace GlobalFrames

variable {σ : Type*}

/-- `GlobalFrames::alloc_zeroed`, with what `FRAME_ALLOC_FN` and `DIRECT_MAP_BASE` hold. -/
def allocZeroed (frameAllocFn : Option (σ → Except Panic (ℕ × σ))) (base : Word) (s : σ)
    (mem : ByteMem) : Except Panic (Option ℕ × σ × ByteMem) :=
  match frameAllocFn with
  | none => .ok (none, s, mem)
  | some alloc =>
    (alloc s).map fun (phys, s) ↦
      if phys = 0 then (none, s, mem)
      else (some phys, s, mem.zeroBytes (BitVec.ofNat 64 phys + base) 4096)

/-- `GlobalFrames::free`, with what `FRAME_FREE_FN` holds. -/
def free (frameFreeFn : Option (ℕ → σ → Except Panic σ)) (phys : ℕ) (s : σ) : Except Panic σ :=
  match frameFreeFn with
  | none => .ok s
  | some free => free phys s

end GlobalFrames

/-! ## What the hook is for -/

/-- The runs of the allocator whose regions end at or below `2 ^ 64` bytes. -/
def byteSystem : TransitionSystem BuddySys BuddyCall where
  init s := s = BuddySys.new
  step s call s' :=
    (∀ start pageCount, call = .addRegion start pageCount → start + pageCount ≤ 2 ^ 64 / pageSize) ∧
      (buddySystem 0).step s call s'

/-- **The hook loses no frame**, called on the manager `m` and the counters `st` whose allocator is
that of `s`: it answers none exactly when no page is free, and then changes nothing, and otherwise
with the address of a page that has just become outstanding, which `free` gives back. -/
def HookKept (s : BuddySys) (m : MemoryManager) (st : Statics) (base : Word) (mem : ByteMem) :
    Prop :=
  ∃ r m' st' mem',
    GlobalFrames.allocZeroed (some allocFrame) base (m, st) mem = .ok (r, (m', st'), mem') ∧
    (r = none ↔ m.buddy.freePages = 0) ∧
    (r = none → m' = m ∧ st' = st ∧ mem' = mem) ∧
    ∀ phys, r = some phys → ∃ p, phys = 4096 * p ∧
      (∃ b ∈ m.buddy.freeBlocks, p ∈ b.cells) ∧ (∀ c ∈ s.outstanding, p ∉ c.cells) ∧
      cover cells m'.buddy.freeBlocks + cover cells (⟨p, 0⟩ ::ₘ s.outstanding) = s.registeredCells ∧
      ∃ m'' st'', GlobalFrames.free (some freeFrame) phys (m', st') = .ok (m'', st'') ∧
        m''.buddy.freePages = m.buddy.freePages

/-- Page 0 is the last entry of the first free list that has an entry. -/
def PageZeroNext (b : BuddyAllocator) : Prop :=
  ∃ i, (∀ j < i, b.freeLists j = []) ∧ (b.freeLists i).getLast? = some 0

namespace FrameHook

variable {s : BuddySys} {m : MemoryManager} {st : Statics} {b b' : BuddyAllocator} {f : ℕ}

theorem lt_of_reachable (hs : byteSystem.Reachable s) :
    s.Inv ∧ ∀ p ∈ s.registeredCells, p < 2 ^ 52 := by
  have hinv : ∀ {s}, byteSystem.Reachable s → s.Inv := fun hs ↦
    BuddySys.inv_of_reachable (hs.mono (fun _ h ↦ h) fun _ _ _ h ↦ h.2)
  refine ⟨hinv hs, ?_⟩
  apply hs.invariant
  · rintro s rfl p hp
    simp [registeredCells, BuddySys.new] at hp
  · rintro s call s' hr hlt ⟨hbytes, hlegal, hnext⟩
    obtain ⟨r, hstep⟩ := step_of_next hnext
    rcases call with ⟨start, pageCount⟩ | k | ⟨frame, order⟩
    · have hle := hbytes start pageCount rfl
      obtain ⟨t, hstep', -, hregistered⟩ : ∃ t, s.step (.addRegion start pageCount) =
          .ok (none, t) ∧ t.Inv ∧ t.registered = ⟨start, pageCount⟩ :: s.registered := by
        obtain ⟨b, hadd, hinv'⟩ := (hinv hr).addRegion_ok hlegal
        refine ⟨_, ?_, hinv', rfl⟩
        rw [step, hadd]
        rfl
      obtain ⟨-, rfl⟩ := Prod.mk.inj (Except.ok.inj (hstep.symm.trans hstep'))
      intro p hp
      rw [mem_registeredCells, hregistered] at hp
      obtain ⟨r, hr, hpr⟩ := hp
      rcases List.mem_cons.mp hr with rfl | hr
      · have hhigh := (Span.mem_cells.mp hpr).2
        norm_num [pageSize] at hle hhigh ⊢
        omega
      · exact hlt p (mem_registeredCells.mpr ⟨r, hr, hpr⟩)
    · obtain ⟨r', t, hstep', -, hsame, -⟩ := (hinv hr).tally.step_alloc k
      obtain ⟨-, rfl⟩ := Prod.mk.inj (Except.ok.inj (hstep.symm.trans hstep'))
      rw [registeredCells, hsame]
      exact hlt
    · obtain ⟨t, hstep', -, hsame, -⟩ := (hinv hr).tally.step_free hlegal
      obtain ⟨-, rfl⟩ := Prod.mk.inj (Except.ok.inj (hstep.symm.trans hstep'))
      rw [registeredCells, hsame]
      exact hlt

theorem getLast?_of_alloc {k : ℕ} {st' : Statics} (h : alloc k b st = .ok (some f, b', st')) :
    ∃ hi : b.findOrder k < maxOrder + 1, (b.freeLists ⟨b.findOrder k, hi⟩).getLast? = some f := by
  rw [alloc] at h
  have hmax : b.findOrder k ≤ maxOrder := by
    by_contra hgt
    rw [if_pos (not_le.mp hgt)] at h
    cases h
  have hi : b.findOrder k < maxOrder + 1 := Nat.lt_succ_of_le hmax
  refine ⟨hi, ?_⟩
  rw [if_neg (not_lt.mpr hmax), slot_of_le hmax] at h
  dsimp only at h
  cases hlast : (b.freeLists ⟨b.findOrder k, hi⟩).getLast? with
  | none =>
    rw [hlast] at h
    cases h
  | some block =>
    rw [hlast] at h
    dsimp only at h
    split at h
    · cases h
    · exact (Prod.mk.inj (Except.ok.inj h)).1

/-- The page an allocation of one page answers with is the one the condition looks at. -/
theorem pageZeroNext_iff {st' : Statics} (h : alloc 0 b st = .ok (some f, b', st')) :
    PageZeroNext b ↔ f = 0 := by
  obtain ⟨hi, hlast⟩ := getLast?_of_alloc h
  obtain ⟨-, hmin, hne⟩ := findOrder_spec b 0
  have hbelow : ∀ j : Fin (maxOrder + 1), (j : ℕ) < b.findOrder 0 → b.freeLists j = [] := by
    intro j hj
    rw [List.eq_nil_iff_forall_not_mem]
    intro g hg
    have hmem : (⟨g, j⟩ : Block) ∈ b.freeBlocks := mem_freeBlocks.mpr ⟨j.isLt, hg⟩
    exact Nat.not_lt_zero _ (hmin _ hmem hj)
  constructor
  · rintro ⟨i, hempty, hzero⟩
    -- both lists are the first that has an entry
    have hfirst : i = ⟨b.findOrder 0, hi⟩ := by
      rcases lt_trichotomy i ⟨b.findOrder 0, hi⟩ with hlt | heq | hgt
      · rw [hbelow i hlt] at hzero
        cases hzero
      · exact heq
      · exact absurd (hempty _ hgt) (hne hi)
    rw [hfirst, hlast] at hzero
    exact Option.some_inj.mp hzero
  · rintro rfl
    exact ⟨_, fun j hj ↦ hbelow j hj, hlast⟩

theorem not_pageZeroNext (h : ¬∃ c, c ∈ b.freeBlocks) : ¬PageZeroNext b := by
  rintro ⟨i, -, hzero⟩
  exact h ⟨⟨0, i⟩, mem_freeBlocks.mpr ⟨i.isLt, List.mem_of_getLast? hzero⟩⟩

theorem allocZeroed_eq {st₁ : Statics} (h : alloc 0 m.buddy st = .ok (some f, b, st₁))
    (hf : f < 2 ^ 52) (base : Word) (mem : ByteMem) :
    GlobalFrames.allocZeroed (some allocFrame) base (m, st) mem =
      .ok (if 4096 * f = 0 then (none, ({ m with buddy := b },
          { st₁ with freeMemory := wsub st₁.freeMemory pageSize }), mem)
        else (some (4096 * f), ({ m with buddy := b },
          { st₁ with freeMemory := wsub st₁.freeMemory pageSize }),
          mem.zeroBytes (BitVec.ofNat 64 (4096 * f) + base) 4096)) := by
  have hphys : f * 4096 % wordSize = 4096 * f := by
    rw [wordSize, Nat.mod_eq_of_lt (by omega), Nat.mul_comm]
  rw [GlobalFrames.allocZeroed, allocFrame, MemoryManager.allocPage, h]
  simp only [Except.map, hphys]
  rfl

/-- A page allocated becomes outstanding, and `free` makes it free again. -/
theorem inv_of_alloc {registered : List Span} {outstanding : Multiset Block} {st₁ : Statics}
    (hinv : BuddySys.Inv ⟨m.buddy, st, registered, outstanding⟩)
    (h : alloc 0 m.buddy st = .ok (some f, b, st₁)) :
    cover cells b.freeBlocks + cover cells (⟨f, 0⟩ ::ₘ outstanding) = cover Span.cells registered ∧
      ∃ m'' st'', GlobalFrames.free (some freeFrame) (4096 * f) ({ m with buddy := b },
          { st₁ with freeMemory := wsub st₁.freeMemory pageSize }) = .ok (m'', st'') ∧
        m''.buddy.freePages = m.buddy.freePages := by
  obtain ⟨r, b', st', h', hafter, -⟩ := hinv.alloc_ok 0
  obtain ⟨rfl, hrest⟩ := Prod.mk.inj (Except.ok.inj (h.symm.trans h'))
  obtain ⟨rfl, rfl⟩ := Prod.mk.inj hrest
  have hlegal : BuddySys.Legal 0 ⟨b, { st₁ with freeMemory := wsub st₁.freeMemory pageSize },
      registered, ⟨f, 0⟩ ::ₘ outstanding⟩ (.free f 0) := Multiset.mem_cons_self _ _
  have hmore : BuddySys.Inv ⟨b, { st₁ with freeMemory := wsub st₁.freeMemory pageSize },
      registered, ⟨f, 0⟩ ::ₘ outstanding⟩ := by
    refine hafter.of_eq rfl rfl rfl ?_
    obtain ⟨_, _, pages, _, _⟩ := st₁
    dsimp only
  obtain ⟨b₂, st₂, hfree, hlast⟩ := hmore.free_ok hlegal
  dsimp only at hfree hlast
  rw [Multiset.erase_cons_head] at hlast
  refine ⟨hmore.cover_eq, { m with buddy := b₂ },
    { st₂ with freeMemory := wadd st₂.freeMemory pageSize }, ?_, ?_⟩
  · rw [GlobalFrames.free, freeFrame, MemoryManager.freePage,
      Nat.mul_div_cancel_left f (by norm_num), hfree]
    rfl
  · -- the same pages are outstanding as before, so the same number is free
    have hbefore := hinv.tally.card_add
    have hafter := hlast.tally.card_add
    have hpages := hinv.freePages
    have hpages' := hlast.freePages
    dsimp only at hbefore hafter hpages hpages' ⊢
    rw [hpages, hpages']
    exact Nat.add_right_cancel (hafter.trans hbefore.symm)

section Hook

variable (hs : byteSystem.Reachable s) (hm : m.buddy = s.buddy)
  (hst : st.pagesAllocated = s.statics.pagesAllocated) (base : Word) (mem : ByteMem)

include hs hm hst

theorem inv_of_hook : BuddySys.Inv ⟨m.buddy, st, s.registered, s.outstanding⟩ :=
  (lt_of_reachable hs).1.of_eq hm rfl rfl hst

theorem exists_first (hfree : ∃ c, c ∈ m.buddy.freeBlocks) :
    ∃ f b st₁, alloc 0 m.buddy st = .ok (some f, b, st₁) ∧ f < 2 ^ 52 ∧
      ∃ d ∈ m.buddy.freeBlocks, f ∈ d.cells := by
  obtain ⟨hinv₀, hlt⟩ := lt_of_reachable hs
  obtain ⟨c, hc⟩ := hfree
  obtain ⟨f, b, halloc, -, -, -, hcover, -, -⟩ :=
    alloc_spec (inv_of_hook hs hm hst).tally (k := 0) ⟨c, hc, Nat.zero_le _⟩
  have hfcells : f ∈ cover cells m.buddy.freeBlocks := by
    rw [← hcover]
    exact Multiset.mem_add.mpr (.inr (base_mem_cells ⟨f, 0⟩))
  refine ⟨f, b, _, halloc, hlt f ?_, mem_cover.mp hfcells⟩
  rw [← hinv₀.cover_eq, ← hm]
  exact Multiset.mem_add.mpr (.inl hfcells)

/-- Page 0 is taken for a failure. -/
theorem not_hookKept (hzero : PageZeroNext m.buddy) : ¬HookKept s m st base mem := by
  have hfree : ∃ c, c ∈ m.buddy.freeBlocks := by
    by_contra hnone
    exact not_pageZeroNext hnone hzero
  have hpages := (inv_of_hook hs hm hst).freePages_ne_zero_iff.mpr hfree
  obtain ⟨f, b, st₁, halloc, hword, -⟩ := exists_first hs hm hst hfree
  have hf := (pageZeroNext_iff halloc).mp hzero
  rw [HookKept, allocZeroed_eq halloc hword base mem, hf, Nat.mul_zero, if_pos rfl]
  rintro ⟨r, m', st', mem', hrun, hnone, -, -⟩
  obtain ⟨rfl, -⟩ := Prod.mk.inj (Except.ok.inj hrun)
  exact hpages (hnone.mp rfl)

theorem hookKept (hnext : ¬PageZeroNext m.buddy) : HookKept s m st base mem := by
  have hinv := inv_of_hook hs hm hst
  by_cases hfree : ∃ c, c ∈ m.buddy.freeBlocks
  · have hpages : m.buddy.freePages ≠ 0 := hinv.freePages_ne_zero_iff.mpr hfree
    obtain ⟨f, b, st₁, halloc, hword, d, hd, hfd⟩ := exists_first hs hm hst hfree
    have hf : f ≠ 0 := fun hf ↦ hnext ((pageZeroNext_iff halloc).mpr hf)
    rw [HookKept, allocZeroed_eq halloc hword base mem,
      if_neg (Nat.mul_ne_zero (by norm_num) hf)]
    refine ⟨some (4096 * f), _, _, _, rfl, iff_of_false (Option.some_ne_none _) hpages,
      fun h ↦ absurd h (Option.some_ne_none _), ?_⟩
    rintro phys hphys
    obtain rfl := Option.some_inj.mp hphys
    exact ⟨f, rfl, ⟨d, hd, hfd⟩, hinv.not_mem_outstanding hd hfd, inv_of_alloc hinv halloc⟩
  · -- nothing is free, and nothing is touched
    have hpages : m.buddy.freePages = 0 := by
      by_contra hne
      exact hfree (hinv.freePages_ne_zero_iff.mp hne)
    have halloc : alloc 0 m.buddy st = .ok (none, m.buddy, st) :=
      alloc_eq_none (fun c hc ↦ absurd ⟨c, hc⟩ hfree) st
    refine ⟨none, m, st, mem, ?_, iff_of_true rfl hpages, fun _ ↦ ⟨rfl, rfl, rfl⟩,
      fun phys h ↦ absurd h.symm (Option.some_ne_none _)⟩
    rw [GlobalFrames.allocZeroed, allocFrame, MemoryManager.allocPage, halloc]
    rfl

end Hook

end FrameHook

open FrameHook in
/-- **The frame hook loses no frame** exactly when page 0 is not the next to be allocated. -/
theorem frame_hook_iff {s : BuddySys} (hs : byteSystem.Reachable s) {m : MemoryManager}
    {st : Statics} (hm : m.buddy = s.buddy) (hst : st.pagesAllocated = s.statics.pagesAllocated)
    (base : Word) (mem : ByteMem) : HookKept s m st base mem ↔ ¬PageZeroNext m.buddy := by
  constructor
  · intro hkept hzero
    exact not_hookKept hs hm hst base mem hzero hkept
  · exact hookKept hs hm hst base mem

namespace FrameHook

theorem reachable_of_addRegion {start pageCount : ℕ} (h : start + pageCount ≤ 2 ^ 64 / pageSize)
    {s : BuddySys} (hs : BuddySys.run 0 [.addRegion start pageCount] BuddySys.new = some s) :
    byteSystem.Reachable s := by
  obtain ⟨t, hlegal, hnext, hrun⟩ := Machine.exists_of_run_cons hs
  have hts : t = s := Option.some_inj.mp hrun
  subst hts
  refine .step (.init rfl) (e := .addRegion start pageCount) ⟨?_, hlegal, hnext⟩
  rintro start' pageCount' heq
  obtain ⟨rfl, rfl⟩ := BuddyCall.addRegion.inj heq
  exact h

theorem exists_onePage (p : ℕ) (hp : p + 1 ≤ 2 ^ 64 / pageSize)
    (hrun : (BuddySys.run 0 [.addRegion p 1] BuddySys.new).map (fun s ↦ s.buddy.freeLists 0) =
      some [p]) : ∃ s, byteSystem.Reachable s ∧ s.buddy.freeLists 0 = [p] := by
  obtain ⟨s, hs, hlist⟩ := Option.map_eq_some_iff.mp hrun
  exact ⟨s, reachable_of_addRegion hp hs, hlist⟩

theorem pageZeroNext_iff_of_first (h : b.freeLists 0 = [f]) : PageZeroNext b ↔ f = 0 := by
  constructor
  · rintro ⟨i, hempty, hzero⟩
    obtain rfl : i = 0 := by
      by_contra hne
      have hnil := hempty 0 (Fin.pos_of_ne_zero hne)
      rw [h] at hnil
      cases hnil
    rw [h] at hzero
    exact Option.some_inj.mp hzero
  · rintro rfl
    exact ⟨0, fun j hj ↦ absurd hj (Fin.not_lt_zero j), by rw [h]; rfl⟩

end FrameHook

open FrameHook in
/-- Page 1 registered: it is handed out, and freed. -/
theorem frame_hook_pageOne :
    ∃ s, byteSystem.Reachable s ∧
      HookKept s { MemoryManager.new with buddy := s.buddy } s.statics 0 fun _ ↦ 0 := by
  obtain ⟨s, hs, hlist⟩ := exists_onePage 1 (by norm_num [pageSize]) (by decide +kernel)
  refine ⟨s, hs, (frame_hook_iff hs rfl rfl 0 fun _ ↦ 0).mpr ?_⟩
  rw [pageZeroNext_iff_of_first hlist]
  exact one_ne_zero

open FrameHook in
/-- **Page 0 is lost**: with nothing else registered, the hook is out of frames. -/
theorem frame_hook_loses :
    ¬∀ s, byteSystem.Reachable s → ∀ (m : MemoryManager) (st : Statics), m.buddy = s.buddy →
      st.pagesAllocated = s.statics.pagesAllocated → ∀ base mem, HookKept s m st base mem := by
  intro h
  obtain ⟨s, hs, hlist⟩ := exists_onePage 0 (by norm_num [pageSize]) (by decide +kernel)
  have hkept := h s hs { MemoryManager.new with buddy := s.buddy } s.statics rfl rfl 0 fun _ ↦ 0
  exact not_hookKept hs rfl rfl 0 _ ((pageZeroNext_iff_of_first hlist).mpr rfl) hkept

end Zeroxos
