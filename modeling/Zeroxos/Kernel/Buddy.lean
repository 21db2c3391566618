import Zeroxos.Library.Block
import Zeroxos.Library.Rust
import Mathlib.Algebra.BigOperators.Fin
import Mathlib.Algebra.Order.BigOperators.Group.Multiset
import Mathlib.Tactic.Abel

/-!
# The buddy allocator

`BuddyAllocator` of the kernel's memory manager. It keeps one free list per order, `0` to
`MAX_ORDER`, of page frame numbers; a block of order `o` is `2 ^ o` consecutive pages.

## The loops

The methods are transcribed loop by loop. Two of the three loops run upward through the orders and
one runs downward, and `add_region` runs along the region; each is a recursion of its own with the
same state. The array of lists is indexed through `slot`, which panics where the source does. So a
method returns in `Except Panic`, and that none of them panics is something to be proved of callers
that keep to a contract.

## The specifications

`freeBlocks` forgets the order inside each list, and every method is specified by what it does to
that family (`push_spec`, `alloc_rule`, `free_rule`). The order inside a list decides which of two
blocks of one order is taken first; the one place where this matters is the frame hook, which asks
whether the next page is page 0.
-/

namespace Zeroxos

/-- `MAX_ORDER`: 4 KB << 9 = 2 MB. -/
def maxOrder : ℕ := 9

/-- `PageFrame`: a physical page frame number. -/
abbrev PageFrame := ℕ

/-- The `static` counters of the memory manager. -/
structure Statics where
  /-- `TOTAL_MEMORY`, in bytes. -/
  totalMemory : ℕ := 0
  /-- `FREE_MEMORY`, in bytes. -/
  freeMemory : ℕ := 0
  /-- `PAGES_ALLOCATED`. -/
  pagesAllocated : ℕ := 0
  /-- `COW_FAULTS`. -/
  cowFaults : ℕ := 0
  /-- `HUGE_PAGES`. -/
  hugePages : ℕ := 0
deriving DecidableEq, Repr

/-- The buddy allocator for physical pages. -/
structure BuddyAllocator where
  /-- `free_lists`, one per order. -/
  freeLists : Fin (maxOrder + 1) → List PageFrame
  totalPages : ℕ
  freePages : ℕ
deriving DecidableEq

namespace BuddyAllocator

def new : BuddyAllocator := ⟨fun _ ↦ [], 0, 0⟩

/-- The bounds check of `free_lists[o as usize]`. -/
def slot (o : ℕ) : Except Panic (Fin (maxOrder + 1)) :=
  if h : o < maxOrder + 1 then .ok ⟨o, h⟩ else .error .indexOutOfBounds

/-- `self.free_lists[i] = l`. -/
def setList (b : BuddyAllocator) (i : Fin (maxOrder + 1)) (l : List PageFrame) : BuddyAllocator :=
  { b with freeLists := Function.update b.freeLists i l }

@[simp] theorem setList_freeLists (b : BuddyAllocator) (i : Fin (maxOrder + 1))
    (l : List PageFrame) : (b.setList i l).freeLists = Function.update b.freeLists i l := rfl

/-- `self.free_lists[o as usize].push(PageFrame(f))`. -/
def push (b : BuddyAllocator) (o : ℕ) (f : PageFrame) : Except Panic BuddyAllocator :=
  match slot o with
  | .error e => .error e
  | .ok i => .ok (b.setList i (b.freeLists i ++ [f]))

/-! ## `add_region` -/

/-- The inner loop of `add_region`: the largest order, counting down from the one given, that fits
both the remaining size and the alignment. -/
def fitOrder (remaining pfn : ℕ) : ℕ → ℕ
  | 0 => 0
  | order + 1 =>
    if 2 ^ (order + 1) ≤ remaining ∧ pfn &&& (2 ^ (order + 1) - 1) = 0 then order + 1
    else fitOrder remaining pfn order

/-- The outer loop of `add_region`. -/
def addRegionLoop (b : BuddyAllocator) (pfn remaining : ℕ) : Except Panic BuddyAllocator :=
  if 0 < remaining then
    match b.push (fitOrder remaining pfn maxOrder) pfn with
    | .error e => .error e
    | .ok b' =>
      addRegionLoop b' (wadd pfn (2 ^ fitOrder remaining pfn maxOrder))
        (remaining - 2 ^ fitOrder remaining pfn maxOrder)
  else .ok b
termination_by remaining
decreasing_by exact Nat.sub_lt ‹_› (Nat.two_pow_pos _)

def addRegion (start : PageFrame) (pageCount : ℕ) (b : BuddyAllocator) :
    Except Panic BuddyAllocator :=
  addRegionLoop { b with
    totalPages := wadd b.totalPages pageCount
    freePages := wadd b.freePages pageCount } start pageCount

/-! ## `alloc` -/

/-- The first loop of `alloc`: the smallest order from `o` on with a free block. -/
def findOrder (b : BuddyAllocator) (o : ℕ) : ℕ :=
  if h : o < maxOrder + 1 then
    if (b.freeLists ⟨o, h⟩).isEmpty then findOrder b (o + 1) else o
  else o
termination_by maxOrder + 1 - o

/-- The second loop of `alloc`: split the block of order `o` at `block` down to `order`. -/
def splitLoop (block order : ℕ) : ℕ → BuddyAllocator → Except Panic BuddyAllocator
  | 0, b => .ok b
  | o + 1, b =>
    if order < o + 1 then
      match b.push o (wadd block (2 ^ o)) with
      | .error e => .error e
      | .ok b' => splitLoop block order o b'
    else .ok b

def alloc (order : ℕ) (b : BuddyAllocator) (st : Statics) :
    Except Panic (Option PageFrame × BuddyAllocator × Statics) :=
  if maxOrder < b.findOrder order then .ok (none, b, st)
  else
    match slot (b.findOrder order) with
    | .error e => .error e
    | .ok i =>
      match (b.freeLists i).getLast? with
      | none => .error .unwrapNone
      | some block =>
        match splitLoop block order (b.findOrder order)
            { b.setList i (b.freeLists i).dropLast with
              freePages := wsub b.freePages (2 ^ order) } with
        | .error e => .error e
        | .ok b' =>
          .ok (some block, b', { st with pagesAllocated := wadd st.pagesAllocated (2 ^ order) })

/-! ## `free` -/

/-- The loop of `free`: absorb the buddy at each order while it is free. It leaves the allocator,
the first page of the merged block and its order. -/
def coalesceLoop (b : BuddyAllocator) (pfn o : ℕ) : BuddyAllocator × ℕ × ℕ :=
  if h : o < maxOrder then
    match (b.freeLists ⟨o, Nat.lt_succ_of_lt h⟩).findIdx? (· == pfn ^^^ 2 ^ o) with
    | some idx =>
      coalesceLoop
        (b.setList ⟨o, Nat.lt_succ_of_lt h⟩
          (swapRemove (b.freeLists ⟨o, Nat.lt_succ_of_lt h⟩) idx))
        (min pfn (pfn ^^^ 2 ^ o)) (o + 1)
    | none => (b, pfn, o)
  else (b, pfn, o)
termination_by maxOrder - o

/-- `BuddyAllocator::free`. An `order` past `MAX_ORDER` skips the loop and panics at the last
index. -/
def free (frame : PageFrame) (order : ℕ) (b : BuddyAllocator) (st : Statics) :
    Except Panic (BuddyAllocator × Statics) :=
  match coalesceLoop { b with freePages := wadd b.freePages (2 ^ order) } frame order with
  | (b', pfn, o) =>
    match b'.push o pfn with
    | .error e => .error e
    | .ok b'' => .ok (b'', { st with pagesAllocated := wsub st.pagesAllocated (2 ^ order) })

/-! ## The free blocks

The family of free blocks, all orders together. A list operation changes it by one block, and
which end of the list that block was at no longer matters. -/

/-- The blocks on the free list of order `i`. -/
def listBlocks (i : Fin (maxOrder + 1)) (l : List PageFrame) : Multiset Block :=
  (l.map fun f ↦ (⟨f, i⟩ : Block) : List Block)

/-- All the free blocks. -/
def freeBlocks (b : BuddyAllocator) : Multiset Block := ∑ i, listBlocks i (b.freeLists i)

theorem mem_listBlocks {i : Fin (maxOrder + 1)} {l : List PageFrame} {c : Block} :
    c ∈ listBlocks i l ↔ c.order = i ∧ c.base ∈ l := by
  rw [listBlocks, Multiset.mem_coe, List.mem_map]
  constructor
  · rintro ⟨f, hf, rfl⟩
    exact ⟨rfl, hf⟩
  · rintro ⟨ho, hf⟩
    exact ⟨c.base, hf, by rw [← ho]⟩

theorem mem_freeBlocks {b : BuddyAllocator} {c : Block} :
    c ∈ b.freeBlocks ↔ ∃ h : c.order < maxOrder + 1, c.base ∈ b.freeLists ⟨c.order, h⟩ := by
  rw [freeBlocks, Multiset.mem_sum]
  constructor
  · rintro ⟨i, -, hc⟩
    obtain ⟨ho, hf⟩ := mem_listBlocks.mp hc
    exact ⟨ho ▸ i.isLt, by simpa only [ho] using hf⟩
  · rintro ⟨h, hf⟩
    exact ⟨⟨c.order, h⟩, Finset.mem_univ _, mem_listBlocks.mpr ⟨rfl, hf⟩⟩

theorem order_le_of_mem_freeBlocks {b : BuddyAllocator} {c : Block} (h : c ∈ b.freeBlocks) :
    c.order ≤ maxOrder := Nat.lt_succ_iff.mp (mem_freeBlocks.mp h).1

@[simp] theorem freeBlocks_new : new.freeBlocks = 0 := by
  rw [freeBlocks]
  exact Finset.sum_eq_zero fun _ _ ↦ rfl

theorem freeBlocks_congr {b b' : BuddyAllocator} (h : b.freeLists = b'.freeLists) :
    b.freeBlocks = b'.freeBlocks := by
  rw [freeBlocks, freeBlocks, h]

theorem freeBlocks_setList (b : BuddyAllocator) (i : Fin (maxOrder + 1)) (l : List PageFrame) :
    (b.setList i l).freeBlocks + listBlocks i (b.freeLists i) = b.freeBlocks + listBlocks i l := by
  have hrest : ∑ j ∈ Finset.univ.erase i, listBlocks j ((b.setList i l).freeLists j)
      = ∑ j ∈ Finset.univ.erase i, listBlocks j (b.freeLists j) := by
    refine Finset.sum_congr rfl fun j hj ↦ ?_
    rw [setList_freeLists, Function.update_of_ne (Finset.ne_of_mem_erase hj)]
  have hi : (b.setList i l).freeLists i = l := Function.update_self _ _ _
  rw [freeBlocks, freeBlocks, ← Finset.add_sum_erase _ _ (Finset.mem_univ i),
    ← Finset.add_sum_erase _ (fun j ↦ listBlocks j (b.freeLists j)) (Finset.mem_univ i), hrest, hi]
  abel

private theorem listBlocks_perm_cons {i : Fin (maxOrder + 1)} {l l' : List PageFrame} {f : ℕ}
    (h : l.Perm (f :: l')) : listBlocks i l = ⟨f, i⟩ ::ₘ listBlocks i l' := by
  rw [listBlocks, listBlocks, Multiset.cons_coe, Multiset.coe_eq_coe]
  exact h.map _

theorem freeBlocks_setList_cons {b : BuddyAllocator} {i : Fin (maxOrder + 1)}
    {l : List PageFrame} {f : ℕ} (h : l.Perm (f :: b.freeLists i)) :
    (b.setList i l).freeBlocks = ⟨f, i⟩ ::ₘ b.freeBlocks := by
  have := freeBlocks_setList b i l
  rw [listBlocks_perm_cons h, Multiset.add_cons, ← Multiset.cons_add] at this
  exact add_right_cancel this

theorem freeBlocks_setList_erase {b : BuddyAllocator} {i : Fin (maxOrder + 1)}
    {l : List PageFrame} {f : ℕ} (h : (f :: l).Perm (b.freeLists i)) :
    (b.setList i l).freeBlocks = b.freeBlocks.erase ⟨f, i⟩ := by
  have := freeBlocks_setList b i l
  rw [listBlocks_perm_cons h.symm, Multiset.add_cons, ← Multiset.cons_add] at this
  rw [← add_right_cancel this, Multiset.erase_cons_head]

theorem slot_of_le {o : ℕ} (h : o ≤ maxOrder) : slot o = .ok ⟨o, Nat.lt_succ_of_le h⟩ :=
  dif_pos (Nat.lt_succ_of_le h)

/-- **`push`** adds one block and touches neither counter. -/
theorem push_spec (b : BuddyAllocator) {o : ℕ} (ho : o ≤ maxOrder) (f : PageFrame) :
    ∃ b', b.push o f = .ok b' ∧ b'.freeBlocks = ⟨f, o⟩ ::ₘ b.freeBlocks ∧
      b'.totalPages = b.totalPages ∧ b'.freePages = b.freePages := by
  refine ⟨b.setList ⟨o, Nat.lt_succ_of_le ho⟩ (b.freeLists ⟨o, Nat.lt_succ_of_le ho⟩ ++ [f]),
    ?_, ?_, rfl, rfl⟩
  · rw [push, slot_of_le ho]
  · exact freeBlocks_setList_cons (List.perm_append_singleton f _)

/-! ## Loop rules

Each loop gets the rule a Hoare logic would give it: an assertion about the free blocks and the
loop's own variables that every iteration preserves holds when the loop is done. The rules also
say that no index goes out of range and that no word wraps. -/

theorem fitOrder_le (remaining pfn : ℕ) : ∀ n, fitOrder remaining pfn n ≤ n
  | 0 => le_refl _
  | n + 1 => by
    rw [fitOrder]
    split_ifs
    · exact le_refl _
    · exact (fitOrder_le remaining pfn n).trans (Nat.le_succ n)

/-- The chosen block fits, so the subtraction in the loop does not go below zero. -/
theorem two_pow_fitOrder_le {remaining : ℕ} (h : 0 < remaining) (pfn : ℕ) :
    ∀ n, 2 ^ fitOrder remaining pfn n ≤ remaining
  | 0 => h
  | n + 1 => by
    rw [fitOrder]
    split_ifs with hc
    · exact hc.1
    · exact two_pow_fitOrder_le h pfn n

theorem two_pow_fitOrder_dvd (remaining pfn : ℕ) : ∀ n, 2 ^ fitOrder remaining pfn n ∣ pfn
  | 0 => one_dvd _
  | n + 1 => by
    rw [fitOrder]
    split_ifs with hc
    · exact Nat.dvd_of_mod_eq_zero (Nat.and_two_pow_sub_one_eq_mod pfn (n + 1) ▸ hc.2)
    · exact two_pow_fitOrder_dvd remaining pfn n

/-- The chosen order is the largest that fits both the size and the alignment. -/
theorem le_fitOrder {remaining pfn j : ℕ} (hsize : 2 ^ j ≤ remaining) (halign : 2 ^ j ∣ pfn) :
    ∀ {n}, j ≤ n → j ≤ fitOrder remaining pfn n
  | 0, hj => hj
  | n + 1, hj => by
    rw [fitOrder]
    split_ifs with hc
    · exact hj
    · rcases Nat.lt_or_ge n j with hn | hn
      · obtain rfl : j = n + 1 := by omega
        have hmod : pfn &&& (2 ^ (n + 1) - 1) = 0 := by
          rw [Nat.and_two_pow_sub_one_eq_mod]
          exact Nat.mod_eq_zero_of_dvd halign
        exact absurd ⟨hsize, hmod⟩ hc
      · exact le_fitOrder hsize halign hn

theorem addRegionLoop_rule {P : Multiset Block → ℕ → ℕ → Prop}
    (hstep : ∀ B pfn rem, 0 < rem → P B pfn rem →
      P (⟨pfn, fitOrder rem pfn maxOrder⟩ ::ₘ B) (pfn + 2 ^ fitOrder rem pfn maxOrder)
        (rem - 2 ^ fitOrder rem pfn maxOrder)) (b : BuddyAllocator) (pfn rem : ℕ) :
    pfn + rem < wordSize → P b.freeBlocks pfn rem →
    ∃ b', addRegionLoop b pfn rem = .ok b' ∧ P b'.freeBlocks (pfn + rem) 0 ∧
      b'.totalPages = b.totalPages ∧ b'.freePages = b.freePages := by
  induction rem using Nat.strong_induction_on generalizing b pfn with
  | _ rem ih =>
    intro hlt hP
    rw [addRegionLoop]
    rcases Nat.eq_zero_or_pos rem with rfl | hrem
    · exact ⟨b, if_neg (lt_irrefl _), hP, rfl, rfl⟩
    · -- the block chosen fits, so what remains shrinks and the next page does not wrap
      rw [if_pos hrem]
      have hle := two_pow_fitOrder_le hrem pfn maxOrder
      have hpos : 0 < 2 ^ fitOrder rem pfn maxOrder := Nat.two_pow_pos _
      obtain ⟨b', hpush, hblocks, htotal, hfree⟩ :=
        b.push_spec (fitOrder_le rem pfn maxOrder) pfn
      obtain ⟨b'', hloop, hP', htotal', hfree'⟩ := ih (rem - 2 ^ fitOrder rem pfn maxOrder)
        (by omega) b' (pfn + 2 ^ fitOrder rem pfn maxOrder) (by omega)
        (by rw [hblocks]; exact hstep _ _ _ hrem hP)
      rw [hpush]
      dsimp only
      rw [wadd_of_lt (by omega)]
      refine ⟨b'', hloop, ?_, htotal'.trans htotal, hfree'.trans hfree⟩
      rwa [Nat.add_assoc, Nat.add_sub_cancel' hle] at hP'

theorem splitLoop_rule {P : Multiset Block → ℕ → Prop} {block order : ℕ}
    (hstep : ∀ B o, order ≤ o → P B (o + 1) → P (⟨block + 2 ^ o, o⟩ ::ₘ B) o) :
    ∀ (o : ℕ) (b : BuddyAllocator), order ≤ o → o ≤ maxOrder → block + 2 ^ o ≤ wordSize →
    P b.freeBlocks o → ∃ b', splitLoop block order o b = .ok b' ∧ P b'.freeBlocks order ∧
      b'.totalPages = b.totalPages ∧ b'.freePages = b.freePages := by
  intro o
  induction o with
  | zero =>
    intro b horder _ _ hP
    obtain rfl : order = 0 := Nat.le_zero.mp horder
    exact ⟨b, rfl, hP, rfl, rfl⟩
  | succ o ih =>
    intro b horder hmax hword hP
    rw [splitLoop]
    rcases Nat.lt_or_ge order (o + 1) with hlt | hge
    · rw [if_pos hlt]
      have hpos : 0 < 2 ^ o := Nat.two_pow_pos _
      rw [pow_succ] at hword
      obtain ⟨b', hpush, hblocks, htotal, hfree⟩ :=
        b.push_spec (by omega : o ≤ maxOrder) (block + 2 ^ o)
      obtain ⟨b'', hloop, hP', htotal', hfree'⟩ := ih b' (by omega) (by omega) (by omega)
        (by rw [hblocks]; exact hstep _ _ (by omega) hP)
      rw [wadd_of_lt (by omega), hpush]
      exact ⟨b'', hloop, hP', htotal'.trans htotal, hfree'.trans hfree⟩
    · obtain rfl : order = o + 1 := by omega
      exact ⟨b, if_neg (lt_irrefl _), hP, rfl, rfl⟩

/-- What `position` finds is the buddy, and `swap_remove` takes it off. -/
private theorem coalesceLoop_of_findIdx {b : BuddyAllocator} {pfn o idx : ℕ} (h : o < maxOrder)
    (hidx : (b.freeLists ⟨o, Nat.lt_succ_of_lt h⟩).findIdx? (· == pfn ^^^ 2 ^ o) = some idx) :
    (⟨pfn, o⟩ : Block).buddy ∈ b.freeBlocks ∧
      (b.setList ⟨o, Nat.lt_succ_of_lt h⟩
        (swapRemove (b.freeLists ⟨o, Nat.lt_succ_of_lt h⟩) idx)).freeBlocks
          = b.freeBlocks.erase (⟨pfn, o⟩ : Block).buddy := by
  obtain ⟨hlt, heq, -⟩ := List.findIdx?_eq_some_iff_getElem.mp hidx
  have hget : (b.freeLists ⟨o, Nat.lt_succ_of_lt h⟩)[idx] = pfn ^^^ 2 ^ o := by simpa using heq
  have hmem : pfn ^^^ 2 ^ o ∈ b.freeLists ⟨o, Nat.lt_succ_of_lt h⟩ := hget ▸ List.getElem_mem hlt
  refine ⟨mem_freeBlocks.mpr ⟨Nat.lt_succ_of_lt h, hmem⟩, ?_⟩
  have hperm := cons_swapRemove_perm hlt
  rw [hget] at hperm
  exact freeBlocks_setList_erase hperm

theorem coalesceLoop_rule {P : Multiset Block → Block → Prop}
    (hstep : ∀ (B : Multiset Block) (c : Block), c.Aligned → c.order < maxOrder → c.buddy ∈ B →
      P B c → P (B.erase c.buddy) c.parent) (b : BuddyAllocator) (pfn o : ℕ) :
    (⟨pfn, o⟩ : Block).Aligned → o ≤ maxOrder → P b.freeBlocks ⟨pfn, o⟩ →
    ∃ b' c, coalesceLoop b pfn o = (b', c.base, c.order) ∧ c.Aligned ∧ c.order ≤ maxOrder ∧
      P b'.freeBlocks c ∧ (c.order < maxOrder → c.buddy ∉ b'.freeBlocks) ∧
      b'.totalPages = b.totalPages ∧ b'.freePages = b.freePages := by
  induction b, pfn, o using coalesceLoop.induct with
  | case1 b pfn o h idx hidx ih =>
    -- the buddy is free: the parent is held next
    intro hal _ hP
    obtain ⟨hmem, hblocks⟩ := coalesceLoop_of_findIdx h hidx
    have hparent : (⟨min pfn (pfn ^^^ 2 ^ o), o + 1⟩ : Block) = (⟨pfn, o⟩ : Block).parent :=
      (Block.parent_eq_min hal).symm
    rw [hparent] at ih
    obtain ⟨b', c, hloop, hc⟩ := ih (Block.aligned_parent _) h
      (by rw [hblocks]; exact hstep _ _ hal h hmem hP)
    refine ⟨b', c, ?_, hc⟩
    rw [coalesceLoop, dif_pos h, hidx]
    exact hloop
  | case2 b pfn o h hidx =>
    -- the buddy is not free: the loop stops here
    intro hal ho hP
    refine ⟨b, ⟨pfn, o⟩, ?_, hal, ho, hP, fun _ hmem ↦ ?_, rfl, rfl⟩
    · rw [coalesceLoop, dif_pos h, hidx]
    · obtain ⟨_, hin⟩ := mem_freeBlocks.mp hmem
      have := List.findIdx?_eq_none_iff.mp hidx _ hin
      simp [Block.buddy] at this
  | case3 b pfn o h =>
    intro hal ho hP
    refine ⟨b, ⟨pfn, o⟩, ?_, hal, ho, hP, fun hlt ↦ absurd hlt h, rfl, rfl⟩
    rw [coalesceLoop, dif_neg h]

/-! ## The methods

One lemma for each way a method can end. -/

/-- The first loop of `alloc` stops at the smallest order that has a block. -/
theorem findOrder_spec (b : BuddyAllocator) (k : ℕ) :
    k ≤ b.findOrder k ∧ (∀ c ∈ b.freeBlocks, c.order < b.findOrder k → c.order < k) ∧
      ∀ h : b.findOrder k < maxOrder + 1, b.freeLists ⟨b.findOrder k, h⟩ ≠ [] := by
  induction k using findOrder.induct b with
  | case1 k hk hempty ih =>
    rw [findOrder, dif_pos hk, if_pos hempty]
    obtain ⟨hle, hmin, hne⟩ := ih
    refine ⟨by omega, fun c hc hlt ↦ ?_, hne⟩
    have hck : c.order ≠ k := by
      rintro rfl
      obtain ⟨_, hin⟩ := mem_freeBlocks.mp hc
      rw [List.isEmpty_iff.mp hempty] at hin
      exact absurd hin List.not_mem_nil
    have := hmin c hc hlt
    omega
  | case2 k hk hempty =>
    rw [findOrder, dif_pos hk, if_neg hempty]
    exact ⟨le_refl _, fun _ _ h ↦ h, fun _ h ↦ hempty (List.isEmpty_iff.mpr h)⟩
  | case3 k hk =>
    rw [findOrder, dif_neg hk]
    exact ⟨le_refl _, fun _ _ h ↦ h, fun h ↦ absurd h hk⟩

/-- **`alloc` refuses** when no free block is large enough, and then changes nothing. -/
theorem alloc_eq_none {b : BuddyAllocator} {k : ℕ} (h : ∀ c ∈ b.freeBlocks, c.order < k)
    (st : Statics) : alloc k b st = .ok (none, b, st) := by
  obtain ⟨hle, -, hne⟩ := findOrder_spec b k
  rw [alloc, if_pos]
  by_contra hmax
  push Not at hmax
  obtain ⟨f, hf⟩ := List.exists_mem_of_ne_nil _ (hne (Nat.lt_succ_of_le hmax))
  have hmem : (⟨f, b.findOrder k⟩ : Block) ∈ b.freeBlocks := mem_freeBlocks.mpr ⟨_, hf⟩
  exact absurd (h _ hmem) (not_lt.mpr hle)

/-- **`alloc` succeeds** when some free block is large enough: it takes one of the smallest large
enough order and puts its upper halves back, down to the order asked for. -/
theorem alloc_rule {P : Block → Multiset Block → ℕ → Prop} {b : BuddyAllocator} {k : ℕ}
    (hword : ∀ c ∈ b.freeBlocks, c.base + 2 ^ c.order ≤ wordSize)
    (hex : ∃ c ∈ b.freeBlocks, k ≤ c.order)
    (hpop : ∀ c ∈ b.freeBlocks, k ≤ c.order → P c (b.freeBlocks.erase c) c.order)
    (hsplit : ∀ c B o, k ≤ o → P c B (o + 1) → P c (⟨c.base + 2 ^ o, o⟩ ::ₘ B) o) (st : Statics) :
    ∃ c ∈ b.freeBlocks, k ≤ c.order ∧ ∃ b',
      alloc k b st = .ok (some c.base, b',
        { st with pagesAllocated := wadd st.pagesAllocated (2 ^ k) }) ∧
      P c b'.freeBlocks k ∧ b'.totalPages = b.totalPages ∧
      b'.freePages = wsub b.freePages (2 ^ k) := by
  obtain ⟨c₀, hc₀, hkc₀⟩ := hex
  obtain ⟨hle, hmin, hne⟩ := findOrder_spec b k
  have hmax : b.findOrder k ≤ maxOrder := by
    by_contra hgt
    push Not at hgt
    have := hmin c₀ hc₀ (lt_of_le_of_lt (order_le_of_mem_freeBlocks hc₀) hgt)
    omega
  set o := b.findOrder k with ho
  obtain ⟨f, hf⟩ : ∃ f, (b.freeLists ⟨o, Nat.lt_succ_of_le hmax⟩).getLast? = some f :=
    ⟨_, List.getLast?_eq_some_getLast (hne _)⟩
  have hmem : (⟨f, o⟩ : Block) ∈ b.freeBlocks :=
    mem_freeBlocks.mpr ⟨Nat.lt_succ_of_le hmax, List.mem_of_getLast? hf⟩
  -- the allocator in which the splitting starts
  set b₁ : BuddyAllocator :=
    { b.setList ⟨o, Nat.lt_succ_of_le hmax⟩ (b.freeLists ⟨o, Nat.lt_succ_of_le hmax⟩).dropLast with
      freePages := wsub b.freePages (2 ^ k) } with hb₁
  have hblocks : b₁.freeBlocks = b.freeBlocks.erase ⟨f, o⟩ := by
    rw [← freeBlocks_setList_erase (cons_dropLast_perm hf)]
    exact freeBlocks_congr rfl
  obtain ⟨b', hloop, hP, htotal, hfree⟩ :=
    splitLoop_rule (P := P ⟨f, o⟩) (fun B j hj ↦ hsplit ⟨f, o⟩ B j hj) o b₁ hle hmax
      (hword _ hmem) (hblocks ▸ hpop _ hmem hle)
  refine ⟨⟨f, o⟩, hmem, hle, b', ?_, hP, htotal, hfree⟩
  rw [alloc, ← ho, if_neg (not_lt.mpr hmax), slot_of_le hmax]
  dsimp only
  rw [hf]
  dsimp only
  rw [← hb₁, hloop]

/-- **`free`** absorbs buddies as long as they are free and puts one block back. -/
theorem free_rule {P : Multiset Block → Block → Prop} {b : BuddyAllocator} {c : Block}
    (hal : c.Aligned) (hmax : c.order ≤ maxOrder) (hP : P b.freeBlocks c)
    (hmerge : ∀ (B : Multiset Block) (d : Block), d.Aligned → d.order < maxOrder → d.buddy ∈ B →
      P B d → P (B.erase d.buddy) d.parent) (st : Statics) :
    ∃ b' B d, free c.base c.order b st
        = .ok (b', { st with pagesAllocated := wsub st.pagesAllocated (2 ^ c.order) }) ∧
      d.Aligned ∧ d.order ≤ maxOrder ∧ P B d ∧ (d.order < maxOrder → d.buddy ∉ B) ∧
      b'.freeBlocks = d ::ₘ B ∧ b'.totalPages = b.totalPages ∧
      b'.freePages = wadd b.freePages (2 ^ c.order) := by
  obtain ⟨b₁, d, hloop, hal', hmax', hP', hbuddy, htotal, hfree⟩ :=
    coalesceLoop_rule hmerge { b with freePages := wadd b.freePages (2 ^ c.order) } c.base c.order
      hal hmax hP
  obtain ⟨b', hpush, hblocks, htotal', hfree'⟩ := b₁.push_spec hmax' d.base
  refine ⟨b', b₁.freeBlocks, d, ?_, hal', hmax', hP', hbuddy, hblocks, htotal'.trans htotal,
    hfree'.trans hfree⟩
  rw [free, hloop]
  dsimp only
  rw [hpush]

end BuddyAllocator

end Zeroxos
