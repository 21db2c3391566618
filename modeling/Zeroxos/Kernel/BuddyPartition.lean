import Zeroxos.Kernel.Buddy
import Zeroxos.Library.Cover
import Zeroxos.Library.Span
import Zeroxos.Library.Transition
import Mathlib.Algebra.Order.BigOperators.Group.List

/-!
# The buddy allocator partitions the registered pages

A run starts from `new()` and makes `add_region`, `alloc` and `free` calls in any order. The
allocator does not remember what it was given or what it handed out, so the system below carries
that next to it: the regions registered and the blocks outstanding. A call is *legal* when a region
is apart from every region before it, and when a freed block is outstanding with the order it was
allocated with.

## The invariant

The invariant is one equation between multisets of page numbers: the pages of the free blocks and
of the outstanding blocks are, together and with multiplicity, the pages registered. A page lost
and a page handed out twice both break it. Every method moves cells between the two sides of the
sum and none changes it, so each step is a rearrangement; disjointness, coverage and the three
counters are read off the equation afterwards.

## How far regions are apart

`Legal` has the gap between regions as a parameter. Disjoint regions, gap 0, are enough for the
partition; that the lists are determined by the free pages needs a page between two regions, gap 1,
since blocks of touching regions are never merged when they are registered. `Tally` is the invariant
without the assumption that regions are disjoint, for what only counts pages.
-/

namespace Zeroxos

open Block BuddyAllocator

/-! ## The system -/

/-- The calls a client makes. -/
inductive BuddyCall
  | addRegion (start pageCount : ℕ)
  | alloc (order : ℕ)
  | free (frame order : ℕ)
deriving DecidableEq, Repr

/-- The allocator, the counters it shares, and what its clients know. -/
structure BuddySys where
  buddy : BuddyAllocator
  statics : Statics
  /-- The regions registered so far. -/
  registered : List Span
  /-- The blocks handed out and not freed, with the orders they were asked for. -/
  outstanding : Multiset Block
deriving DecidableEq

namespace BuddySys

/-- Before the first call. -/
def new : BuddySys := ⟨BuddyAllocator.new, {}, [], 0⟩

/-- One call, and what it returns. -/
def step (s : BuddySys) : BuddyCall → Except Panic (Option PageFrame × BuddySys)
  | .addRegion start pageCount =>
    (addRegion start pageCount s.buddy).map fun b ↦
      (none, { s with buddy := b, registered := ⟨start, pageCount⟩ :: s.registered })
  | .alloc order =>
    (alloc order s.buddy s.statics).map fun (r, b, st) ↦
      (r, { s with
        buddy := b
        statics := st
        outstanding := match r with
          | none => s.outstanding
          | some f => ⟨f, order⟩ ::ₘ s.outstanding })
  | .free frame order =>
    (free frame order s.buddy s.statics).map fun (b, st) ↦
      (none, { s with
        buddy := b
        statics := st
        outstanding := s.outstanding.erase ⟨frame, order⟩ })

/-- What a call may assume: a new region ends below `2 ^ 64` and keeps `gap` pages from the old
ones, and a freed block is outstanding with its own order. -/
def Legal (gap : ℕ) (s : BuddySys) : BuddyCall → Prop
  | .addRegion start pageCount =>
    start + pageCount < wordSize ∧ ∀ r ∈ s.registered, Span.Apart gap ⟨start, pageCount⟩ r
  | .alloc _ => True
  | .free frame order => (⟨frame, order⟩ : Block) ∈ s.outstanding

instance (gap : ℕ) (s : BuddySys) : (call : BuddyCall) → Decidable (s.Legal gap call)
  | .addRegion _ _ => inferInstanceAs (Decidable (_ ∧ _))
  | .alloc _ => inferInstanceAs (Decidable True)
  | .free _ _ => inferInstanceAs (Decidable (_ ∈ _))

/-- The pages registered, with multiplicity. -/
def registeredCells (s : BuddySys) : Multiset ℕ :=
  cover Span.cells s.registered

/-- How many pages were registered. -/
def registeredPages (s : BuddySys) : ℕ := (s.registered.map Span.len).sum

/-- How many pages are outstanding. -/
def outstandingPages (s : BuddySys) : ℕ := (s.outstanding.map fun b ↦ 2 ^ b.order).sum

/-- The state after a call, `none` when it panics. -/
def next (s : BuddySys) (call : BuddyCall) : Option BuddySys := (s.step call).toOption.map Prod.snd

theorem next_of_step {s s' : BuddySys} {call : BuddyCall} {r : Option PageFrame}
    (h : s.step call = .ok (r, s')) : s.next call = some s' := by
  rw [next, h]
  rfl

theorem step_of_next {s s' : BuddySys} {call : BuddyCall} (h : s.next call = some s') :
    ∃ r, s.step call = .ok (r, s') := by
  rw [next] at h
  cases hstep : s.step call with
  | error e =>
    rw [hstep] at h
    cases h
  | ok p =>
    rw [hstep] at h
    cases h
    exact ⟨p.1, rfl⟩

/-- The allocator and its contract, when regions keep `gap` pages apart. -/
def machine (gap : ℕ) : Machine BuddySys BuddyCall where
  init s := s = new
  Legal := Legal gap
  next := next

instance (gap : ℕ) (s : BuddySys) (call : BuddyCall) : Decidable ((machine gap).Legal s call) :=
  inferInstanceAs (Decidable (s.Legal gap call))

/-- Make the calls in order, as long as they are legal. -/
abbrev run (gap : ℕ) : List BuddyCall → BuddySys → Option BuddySys := (machine gap).run

end BuddySys

/-- The runs of the allocator in which regions keep `gap` pages apart. -/
def buddySystem (gap : ℕ) : TransitionSystem BuddySys BuddyCall := (BuddySys.machine gap).system

namespace BuddySys

theorem run_cons {gap : ℕ} {s s' : BuddySys} {call : BuddyCall} {r : Option PageFrame}
    (hlegal : s.Legal gap call) (hstep : s.step call = .ok (r, s')) (calls : List BuddyCall) :
    run gap (call :: calls) s = run gap calls s' :=
  Machine.run_cons (M := machine gap) hlegal (next_of_step hstep) calls

theorem reachable_step {gap : ℕ} {s s' : BuddySys} {call : BuddyCall} {r : Option PageFrame}
    (hs : (buddySystem gap).Reachable s) (hlegal : s.Legal gap call)
    (hstep : s.step call = .ok (r, s')) : (buddySystem gap).Reachable s' :=
  .step hs ⟨hlegal, next_of_step hstep⟩

/-! ## The invariant -/

/-- **The partition, as one equation.** -/
structure Inv (s : BuddySys) : Prop where
  aligned : ∀ b ∈ s.buddy.freeBlocks, b.Aligned
  aligned_outstanding : ∀ b ∈ s.outstanding, b.Aligned ∧ b.order ≤ maxOrder
  cover_eq : cover cells s.buddy.freeBlocks + cover cells s.outstanding = s.registeredCells
  nodup : s.registeredCells.Nodup
  lt_wordSize : ∀ p ∈ s.registeredCells, p + 1 < wordSize
  totalPages : s.buddy.totalPages = s.registeredCells.card
  freePages : s.buddy.freePages = (cover cells s.buddy.freeBlocks).card
  pagesAllocated : s.statics.pagesAllocated = (cover cells s.outstanding).card

variable {s s' : BuddySys}

theorem mem_registeredCells {p : ℕ} :
    p ∈ s.registeredCells ↔ ∃ r ∈ s.registered, p ∈ r.cells := mem_cover

theorem card_registeredCells (s : BuddySys) : s.registeredCells.card = s.registeredPages := by
  rw [registeredCells, registeredPages, card_cover, Multiset.map_coe, Multiset.sum_coe]
  congr 1
  exact List.map_congr_left fun r _ ↦ r.card_cells

/-- Distinct pages below the top word: their number is a word too. -/
theorem card_lt_wordSize {m : Multiset ℕ} (hnodup : m.Nodup) (hlt : ∀ p ∈ m, p + 1 < wordSize) :
    m.card < wordSize := by
  have hcard := card_le_of_nodup 0 (wordSize - 1) hnodup fun p hp ↦
    ⟨Nat.zero_le p, Nat.lt_sub_of_add_lt (hlt p hp)⟩
  have : 0 < wordSize := by norm_num [wordSize]
  omega

theorem Inv.card_lt (h : s.Inv) : s.registeredCells.card < wordSize :=
  card_lt_wordSize h.nodup h.lt_wordSize

/-- What of the invariant is left when regions may overlap, as long as their number of pages is a
word. -/
structure Tally (s : BuddySys) : Prop where
  aligned : ∀ b ∈ s.buddy.freeBlocks, b.Aligned
  aligned_outstanding : ∀ b ∈ s.outstanding, b.Aligned ∧ b.order ≤ maxOrder
  cover_eq : cover cells s.buddy.freeBlocks + cover cells s.outstanding = s.registeredCells
  card_lt : s.registeredCells.card < wordSize
  lt_wordSize : ∀ p ∈ s.registeredCells, p + 1 < wordSize
  totalPages : s.buddy.totalPages = s.registeredCells.card
  freePages : s.buddy.freePages = (cover cells s.buddy.freeBlocks).card
  pagesAllocated : s.statics.pagesAllocated = (cover cells s.outstanding).card

theorem Inv.tally (h : s.Inv) : s.Tally :=
  ⟨h.aligned, h.aligned_outstanding, h.cover_eq, h.card_lt, h.lt_wordSize, h.totalPages,
    h.freePages, h.pagesAllocated⟩

theorem Tally.inv (h : s.Tally) (hnodup : s.registeredCells.Nodup) : s.Inv :=
  ⟨h.aligned, h.aligned_outstanding, h.cover_eq, hnodup, h.lt_wordSize, h.totalPages, h.freePages,
    h.pagesAllocated⟩

theorem Tally.block_lt (h : s.Tally) {b : Block} (hb : b ∈ s.buddy.freeBlocks) :
    b.base + 2 ^ b.order ≤ wordSize := by
  have hpos : 0 < 2 ^ b.order := Nat.two_pow_pos _
  have hlast : b.base + 2 ^ b.order - 1 ∈ s.registeredCells := by
    rw [← h.cover_eq]
    refine Multiset.mem_add.mpr (Or.inl (mem_cover.mpr ⟨b, hb, ?_⟩))
    rw [mem_cells]
    omega
  have := h.lt_wordSize _ hlast
  omega

theorem Tally.card_add (h : s.Tally) :
    (cover cells s.buddy.freeBlocks).card + (cover cells s.outstanding).card
      = s.registeredCells.card := by
  rw [← Multiset.card_add, h.cover_eq]

theorem inv_new : new.Inv where
  aligned b hb := by simp [new] at hb
  aligned_outstanding b hb := by simp [new] at hb
  cover_eq := by simp [new, registeredCells]
  nodup := by simp [new, registeredCells]
  lt_wordSize p hp := by simp [new, registeredCells] at hp
  totalPages := by simp [new, registeredCells, BuddyAllocator.new]
  freePages := by
    rw [new, freeBlocks_new]
    rfl
  pagesAllocated := by simp [new]

/-! ## Every call keeps the invariant -/

/-- What the loop of `add_region` maintains: the pages placed and the pages still to place are,
together, what they were at the start. -/
theorem addRegion_spec {b : BuddyAllocator} (hal : ∀ c ∈ b.freeBlocks, c.Aligned)
    {start pageCount : ℕ} (hword : start + pageCount < wordSize) :
    ∃ b', addRegion start pageCount b = .ok b' ∧ (∀ c ∈ b'.freeBlocks, c.Aligned) ∧
      cover cells b'.freeBlocks
        = cover cells b.freeBlocks + (Span.cells ⟨start, pageCount⟩).val ∧
      b'.totalPages = wadd b.totalPages pageCount ∧
      b'.freePages = wadd b.freePages pageCount := by
  obtain ⟨b', hloop, ⟨hal', hcover⟩, htotal, hfree⟩ := addRegionLoop_rule
    (P := fun B pfn rem ↦ (∀ c ∈ B, c.Aligned) ∧ cover cells B + Multiset.Ico pfn (pfn + rem)
      = cover cells b.freeBlocks + Multiset.Ico start (start + pageCount))
    (fun B pfn rem hrem hP ↦ by
      have hle := two_pow_fitOrder_le hrem pfn maxOrder
      refine ⟨fun c hc ↦ ?_, ?_⟩
      · rcases Multiset.mem_cons.mp hc with rfl | hc
        · exact two_pow_fitOrder_dvd rem pfn maxOrder
        · exact hP.1 c hc
      · rw [cover_cons, Nat.add_assoc, Nat.add_sub_cancel' hle, ← hP.2,
          ← Multiset.Ico_add_Ico_eq_Ico (Nat.le_add_right pfn _) (Nat.add_le_add_left hle pfn)]
        show Multiset.Ico _ _ + _ + _ = _
        abel)
    { b with
      totalPages := wadd b.totalPages pageCount
      freePages := wadd b.freePages pageCount } start pageCount hword ⟨hal, rfl⟩
  refine ⟨b', hloop, hal', ?_, htotal, hfree⟩
  rw [Multiset.Ico_eq_zero_of_le (le_of_eq (Nat.add_zero _)), add_zero] at hcover
  exact hcover

theorem alloc_spec (h : s.Tally) {k : ℕ} (hex : ∃ c ∈ s.buddy.freeBlocks, k ≤ c.order) :
    ∃ f b', alloc k s.buddy s.statics = .ok (some f, b',
        { s.statics with pagesAllocated := wadd s.statics.pagesAllocated (2 ^ k) }) ∧
      k ≤ maxOrder ∧ (⟨f, k⟩ : Block).Aligned ∧ (∀ c ∈ b'.freeBlocks, c.Aligned) ∧
      cover cells b'.freeBlocks + (⟨f, k⟩ : Block).cells.val = cover cells s.buddy.freeBlocks ∧
      b'.totalPages = s.buddy.totalPages ∧ b'.freePages = wsub s.buddy.freePages (2 ^ k) := by
  obtain ⟨c, hc, hkc, b', halloc, ⟨_, hal, hcover⟩, htotal, hfree⟩ := alloc_rule
    (P := fun c B o ↦ (c.Aligned ∧ o ≤ c.order) ∧ (∀ d ∈ B, d.Aligned) ∧
      cover cells B + (⟨c.base, o⟩ : Block).cells.val = cover cells s.buddy.freeBlocks)
    (fun c hc ↦ h.block_lt hc) hex
    (fun c hc _ ↦ by
      refine ⟨⟨h.aligned c hc, le_refl _⟩,
        fun d hd ↦ h.aligned d (Multiset.mem_of_mem_erase hd), ?_⟩
      rw [add_comm, ← cover_cons, Multiset.cons_erase hc])
    (fun c B o _ hP ↦ by
      obtain ⟨⟨hcal, ho⟩, hal, hcover⟩ := hP
      have hdvd : 2 ^ o ∣ c.base := (Nat.pow_dvd_pow 2 (by omega)).trans hcal
      refine ⟨⟨hcal, by omega⟩, fun d hd ↦ ?_, ?_⟩
      · rcases Multiset.mem_cons.mp hd with rfl | hd
        · exact (Nat.dvd_add_right hdvd).mpr (dvd_refl _)
        · exact hal d hd
      · rw [cover_cons, ← hcover, ← cells_val_split]
        abel) s.statics
  exact ⟨c.base, b', halloc, hkc.trans (order_le_of_mem_freeBlocks hc),
    (Nat.pow_dvd_pow 2 hkc).trans (h.aligned c hc), hal, hcover, htotal, hfree⟩

theorem free_spec (h : s.Tally) {c : Block} (hc : c ∈ s.outstanding) :
    ∃ b', free c.base c.order s.buddy s.statics
        = .ok (b', { s.statics with
            pagesAllocated := wsub s.statics.pagesAllocated (2 ^ c.order) }) ∧
      (∀ d ∈ b'.freeBlocks, d.Aligned) ∧
      cover cells b'.freeBlocks = cover cells s.buddy.freeBlocks + c.cells.val ∧
      b'.totalPages = s.buddy.totalPages ∧
      b'.freePages = wadd s.buddy.freePages (2 ^ c.order) := by
  obtain ⟨hcal, hmax⟩ := h.aligned_outstanding c hc
  obtain ⟨b', B, d, hfree, hdal, _, ⟨hal, hcover⟩, _, hblocks, htotal, hpages⟩ := free_rule
    (P := fun B d ↦ (∀ e ∈ B, e.Aligned) ∧
      cover cells B + d.cells.val = cover cells s.buddy.freeBlocks + c.cells.val)
    hcal hmax ⟨h.aligned, rfl⟩
    (fun B d hd _ hmem hP ↦ by
      refine ⟨fun e he ↦ hP.1 e (Multiset.mem_of_mem_erase he), ?_⟩
      rw [← hP.2, ← cells_val_add_buddy hd]
      conv_rhs => rw [← Multiset.cons_erase hmem, cover_cons]
      abel) s.statics
  refine ⟨b', hfree, fun e he ↦ ?_, ?_, htotal, hpages⟩
  · rw [hblocks] at he
    rcases Multiset.mem_cons.mp he with rfl | he
    · exact hdal
    · exact hal e he
  · rw [hblocks, cover_cons, add_comm, hcover]

/-- What a call returns, and what must have been true for it to return that. -/
def Returns (s : BuddySys) : BuddyCall → Option PageFrame → BuddySys → Prop
  | .addRegion _ _, _, _ => True
  | .alloc order, none, s' =>
    (maxOrder < order ∨ ∀ b ∈ s.buddy.freeBlocks, b.order < order) ∧ s' = s
  | .alloc order, some f, _ =>
    order ≤ maxOrder ∧ (∃ b ∈ s.buddy.freeBlocks, order ≤ b.order) ∧ 2 ^ order ∣ f ∧
      (∀ p, f ≤ p → p < f + 2 ^ order → ∃ b ∈ s.buddy.freeBlocks, p ∈ b.cells) ∧
      2 ^ order ≤ s.buddy.freePages
  | .free _ order, _, _ => 2 ^ order ≤ s.statics.pagesAllocated

theorem Tally.step_addRegion (h : s.Tally) {start pageCount : ℕ}
    (hword : start + pageCount < wordSize)
    (hcard : s.registeredCells.card + pageCount < wordSize) :
    ∃ s', s.step (.addRegion start pageCount) = .ok (none, s') ∧ s'.Tally ∧
      s'.registered = ⟨start, pageCount⟩ :: s.registered := by
  obtain ⟨b', hadd, hal, hcover, htotal, hfree⟩ := addRegion_spec h.aligned hword
  refine ⟨{ s with buddy := b', registered := ⟨start, pageCount⟩ :: s.registered }, ?_, ?_, rfl⟩
  · rw [step, hadd]
    rfl
  set s' : BuddySys := { s with buddy := b', registered := ⟨start, pageCount⟩ :: s.registered }
  have hcells : s'.registeredCells
      = (Span.cells ⟨start, pageCount⟩).val + s.registeredCells := by
    rw [registeredCells, ← Multiset.cons_coe, cover_cons]
    rfl
  have hcards : s'.registeredCells.card = s.registeredCells.card + pageCount := by
    rw [hcells, Multiset.card_add, add_comm, Finset.card_val, Span.card_cells]
  have hfreecard : (cover cells b'.freeBlocks).card
      = (cover cells s.buddy.freeBlocks).card + pageCount := by
    rw [hcover, Multiset.card_add, Finset.card_val, Span.card_cells]
  have hadd := h.card_add
  exact
    { aligned := hal
      aligned_outstanding := h.aligned_outstanding
      cover_eq := by
        rw [hcells, ← h.cover_eq, hcover]
        abel
      card_lt := hcards ▸ hcard
      lt_wordSize := fun p hp ↦ by
        rw [hcells, Multiset.mem_add] at hp
        rcases hp with hp | hp
        · have := (Span.mem_cells.mp hp).2
          dsimp only at this
          omega
        · exact h.lt_wordSize p hp
      totalPages := by
        rw [htotal, h.totalPages, hcards, wadd_of_lt (by omega)]
      freePages := by
        rw [hfree, h.freePages, hfreecard, wadd_of_lt (by omega)]
      pagesAllocated := h.pagesAllocated }

theorem step_addRegion (h : s.Inv) {start pageCount : ℕ}
    (hlegal : s.Legal 0 (.addRegion start pageCount)) :
    ∃ s', s.step (.addRegion start pageCount) = .ok (none, s') ∧ s'.Inv := by
  obtain ⟨hword, hapart⟩ := hlegal
  -- the contract keeps the region apart from those before it
  have hnodup : ((Span.cells ⟨start, pageCount⟩).val + s.registeredCells).Nodup := by
    rw [Multiset.nodup_add]
    refine ⟨Finset.nodup _, h.nodup, Multiset.disjoint_left.mpr fun {p} hp hq ↦ ?_⟩
    obtain ⟨r, hr, hpr⟩ := mem_registeredCells.mp hq
    exact Finset.disjoint_left.mp (Span.Apart.disjoint (hapart r hr)) hp hpr
  have hbound : s.registeredCells.card + pageCount < wordSize := by
    have hcard := card_lt_wordSize hnodup fun p hp ↦ by
      rcases Multiset.mem_add.mp hp with hp | hp
      · have := (Span.mem_cells.mp hp).2
        dsimp only at this
        omega
      · exact h.lt_wordSize p hp
    rwa [Multiset.card_add, add_comm, Finset.card_val, Span.card_cells] at hcard
  obtain ⟨s', hstep, htally, hregistered⟩ := h.tally.step_addRegion hword hbound
  refine ⟨s', hstep, htally.inv ?_⟩
  rw [registeredCells, hregistered, ← Multiset.cons_coe, cover_cons]
  exact hnodup

theorem Tally.step_alloc (h : s.Tally) (k : ℕ) :
    ∃ r s', s.step (.alloc k) = .ok (r, s') ∧ s'.Tally ∧ s'.registered = s.registered ∧
      s.Returns (.alloc k) r s' := by
  by_cases hex : ∃ c ∈ s.buddy.freeBlocks, k ≤ c.order
  · obtain ⟨f, b', halloc, hmax, hfal, hal, hcover, htotal, hfree⟩ := alloc_spec h hex
    have hcard : (cover cells b'.freeBlocks).card + 2 ^ k
        = (cover cells s.buddy.freeBlocks).card := by
      rw [← hcover, Multiset.card_add, Finset.card_val, card_cells]
    have hadd := h.card_add
    have hbound := h.card_lt
    refine ⟨some f, { s with
      buddy := b'
      statics := { s.statics with pagesAllocated := wadd s.statics.pagesAllocated (2 ^ k) }
      outstanding := ⟨f, k⟩ ::ₘ s.outstanding }, ?_, ?_, rfl, hmax, hex, hfal, ?_, ?_⟩
    · rw [step, halloc]
      rfl
    · exact
        { aligned := hal
          aligned_outstanding := fun c hc ↦ by
            rcases Multiset.mem_cons.mp hc with rfl | hc
            · exact ⟨hfal, hmax⟩
            · exact h.aligned_outstanding c hc
          cover_eq := by
            rw [cover_cons, ← add_assoc, hcover]
            exact h.cover_eq
          card_lt := h.card_lt
          lt_wordSize := h.lt_wordSize
          totalPages := htotal.trans h.totalPages
          freePages := by
            rw [hfree, h.freePages, wsub_of_le (by omega) (by omega), ← hcard,
              Nat.add_sub_cancel_right]
          pagesAllocated := by
            rw [cover_cons, Multiset.card_add, Finset.card_val, card_cells, h.pagesAllocated,
              wadd_of_lt (by omega), add_comm] }
    · -- the pages of the block were on the free side
      intro p hp hlt
      refine mem_cover.mp ?_
      rw [← hcover]
      exact Multiset.mem_add.mpr (Or.inr (mem_cells.mpr ⟨hp, hlt⟩))
    · rw [h.freePages]
      omega
  · push Not at hex
    refine ⟨none, s, ?_, h, rfl, Or.inr hex, rfl⟩
    rw [step, alloc_eq_none hex]
    rfl

theorem Tally.inv_of_registered (h : s'.Tally) (hs : s.Inv) (heq : s'.registered = s.registered) :
    s'.Inv := by
  refine h.inv ?_
  rw [registeredCells, heq]
  exact hs.nodup

theorem step_alloc (h : s.Inv) (k : ℕ) :
    ∃ r s', s.step (.alloc k) = .ok (r, s') ∧ s'.Inv ∧ s.Returns (.alloc k) r s' := by
  obtain ⟨r, s', hstep, htally, hregistered, hreturns⟩ := h.tally.step_alloc k
  exact ⟨r, s', hstep, htally.inv_of_registered h hregistered, hreturns⟩

theorem Tally.step_free (h : s.Tally) {frame order : ℕ}
    (hlegal : s.Legal 0 (.free frame order)) :
    ∃ s', s.step (.free frame order) = .ok (none, s') ∧ s'.Tally ∧ s'.registered = s.registered ∧
      2 ^ order ≤ s.statics.pagesAllocated := by
  obtain ⟨b', hfree, hal, hcover, htotal, hpages⟩ := free_spec h hlegal
  dsimp only at hfree hpages
  have hout : cover cells s.outstanding
      = (⟨frame, order⟩ : Block).cells.val + cover cells (s.outstanding.erase ⟨frame, order⟩) := by
    rw [← cover_cons, Multiset.cons_erase hlegal]
  have hcard : (cover cells s.outstanding).card
      = 2 ^ order + (cover cells (s.outstanding.erase ⟨frame, order⟩)).card := by
    rw [hout, Multiset.card_add, Finset.card_val, card_cells]
  have hfreecard : (cover cells b'.freeBlocks).card
      = (cover cells s.buddy.freeBlocks).card + 2 ^ order := by
    rw [hcover, Multiset.card_add, Finset.card_val, card_cells]
  have hadd := h.card_add
  have hbound := h.card_lt
  refine ⟨{ s with
    buddy := b'
    statics := { s.statics with pagesAllocated := wsub s.statics.pagesAllocated (2 ^ order) }
    outstanding := s.outstanding.erase ⟨frame, order⟩ }, ?_, ?_, rfl, ?_⟩
  · rw [step, hfree]
    rfl
  · exact
      { aligned := hal
        aligned_outstanding := fun c hc ↦
          h.aligned_outstanding c (Multiset.mem_of_mem_erase hc)
        cover_eq := by
          rw [hcover, add_assoc, ← hout]
          exact h.cover_eq
        card_lt := h.card_lt
        lt_wordSize := h.lt_wordSize
        totalPages := htotal.trans h.totalPages
        freePages := by
          rw [hpages, h.freePages, hfreecard, wadd_of_lt (by omega)]
        pagesAllocated := by
          rw [h.pagesAllocated, wsub_of_le (by omega) (by omega), hcard, Nat.add_sub_cancel_left] }
  · rw [h.pagesAllocated, hcard]
    exact Nat.le_add_right _ _

theorem step_free (h : s.Inv) {frame order : ℕ} (hlegal : s.Legal 0 (.free frame order)) :
    ∃ s', s.step (.free frame order) = .ok (none, s') ∧ s'.Inv ∧
      2 ^ order ≤ s.statics.pagesAllocated := by
  obtain ⟨s', hstep, htally, hregistered, hle⟩ := h.tally.step_free hlegal
  exact ⟨s', hstep, htally.inv_of_registered h hregistered, hle⟩

/-- **One call.** A legal call returns, keeps the invariant, and returns what it should. -/
theorem Inv.step_ok (h : s.Inv) {call : BuddyCall} (hlegal : s.Legal 0 call) :
    ∃ r s', s.step call = .ok (r, s') ∧ s'.Inv ∧ s.Returns call r s' := by
  cases call with
  | addRegion start pageCount =>
    obtain ⟨s', hstep, hinv⟩ := step_addRegion h hlegal
    exact ⟨none, s', hstep, hinv, trivial⟩
  | alloc order => exact step_alloc h order
  | free frame order =>
    obtain ⟨s', hstep, hinv, hle⟩ := step_free h hlegal
    exact ⟨none, s', hstep, hinv, hle⟩

/-- **Every run.** -/
theorem inv_of_reachable (h : (buddySystem 0).Reachable s) : s.Inv := by
  refine h.invariant (P := Inv) (fun s hs ↦ ?_) (fun s call s' _ hinv hstep ↦ ?_)
  · rw [hs]
    exact inv_new
  · obtain ⟨hlegal, hnext⟩ := hstep
    obtain ⟨r, s'', hs'', hinv', -⟩ := hinv.step_ok hlegal
    rw [show (machine 0).next s call = some s'' from next_of_step hs''] at hnext
    cases hnext
    exact hinv'

/-! ## The partition theorem -/

/-- The free blocks and the outstanding blocks partition the registered pages, and the counters
count them. -/
structure Partitioned (s : BuddySys) : Prop where
  /-- Free list `o` holds multiples of `2 ^ o`. -/
  aligned : ∀ i, ∀ f ∈ s.buddy.freeLists i, 2 ^ (i : ℕ) ∣ f
  /-- No page is in two blocks. -/
  disjoint : (s.buddy.freeBlocks + s.outstanding).Pairwise fun a b ↦ Disjoint a.cells b.cells
  /-- The blocks have exactly the registered pages. -/
  cover : ∀ p, (∃ b ∈ s.buddy.freeBlocks + s.outstanding, p ∈ b.cells) ↔
    ∃ r ∈ s.registered, p ∈ r.cells
  /-- `free_pages()` is what was registered less what is outstanding. -/
  freePages : s.outstandingPages ≤ s.registeredPages ∧
    s.buddy.freePages = s.registeredPages - s.outstandingPages
  /-- `total_pages()` is what was registered. -/
  totalPages : s.buddy.totalPages = s.registeredPages

theorem Inv.partitioned (h : s.Inv) : s.Partitioned where
  aligned i f hf := h.aligned ⟨f, i⟩ (mem_freeBlocks.mpr ⟨i.isLt, hf⟩)
  disjoint := by
    refine pairwise_disjoint_of_nodup_cover ?_
    rw [cover_add, h.cover_eq]
    exact h.nodup
  cover p := by
    rw [← mem_cover, cover_add, h.cover_eq, mem_registeredCells]
  freePages := by
    have hadd := h.tally.card_add
    have hout : (cover cells s.outstanding).card = s.outstandingPages := by
      rw [card_cover, Multiset.map_congr rfl fun b _ ↦ b.card_cells, outstandingPages]
    rw [card_registeredCells] at hadd
    rw [h.freePages]
    omega
  totalPages := by rw [h.totalPages, card_registeredCells]

end BuddySys

/-- **The buddy allocator partitions the registered pages** after every call of every run, and no
legal call panics. -/
theorem buddy_partition {s : BuddySys} (hs : (buddySystem 0).Reachable s) :
    s.Partitioned ∧ ∀ call, s.Legal 0 call →
      ∃ r s', s.step call = .ok (r, s') ∧ s.Returns call r s' := by
  have hinv := BuddySys.inv_of_reachable hs
  refine ⟨hinv.partitioned, fun call hlegal ↦ ?_⟩
  obtain ⟨r, s', hstep, -, hreturns⟩ := hinv.step_ok hlegal
  exact ⟨r, s', hstep, hreturns⟩

/-- Pages 1 to 6 registered and one page allocated. -/
theorem buddy_partition_of_alloc :
    BuddySys.Partitioned ((BuddySys.run 0 [.addRegion 1 6, .alloc 0] BuddySys.new).get
      (by decide +kernel)) :=
  (buddy_partition (Machine.reachable_run (.init rfl) (Option.some_get _).symm)).1

end Zeroxos
