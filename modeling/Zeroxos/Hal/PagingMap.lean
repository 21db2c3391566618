import Zeroxos.Hal.PagingTree
import Zeroxos.Library.Transition

/-!
# The walker refines a map from pages to frames

`PageMap` is what the page tables are for: a partial map from virtual page numbers to physical
frames, with the answers `map`, `unmap` and `translate` ought to give.

## Two runs

The system runs the walker and the map side by side, the map on its own definitions only; it is told
one bit about the walker, whether the allocator can supply the tables the request still needs.

## The relation

The two are related by reading the leaf entry of each page (`decode`). A canonical address is
determined, up to the offset, by its four indices, so that distinct pages have distinct leaves and a
write to one leaf is an update of the map at one page (`paging_refines`).
-/

namespace Zeroxos

variable {σ : Type*} {A : FrameAllocator σ} {a₀ : σ} {root virt v w : BitVec 64} {m : PhysMem}
  {used : Set (BitVec 64)}

/-! ## Pages -/

/-- A canonical 48-bit virtual address: bits 63 to 47 agree. -/
def Canonical (virt : BitVec 64) : Prop := virt.toNat < 2 ^ 47 ∨ 2 ^ 64 - 2 ^ 47 ≤ virt.toNat

instance (virt : BitVec 64) : Decidable (Canonical virt) := inferInstanceAs (Decidable (_ ∨ _))

instance (f : BitVec 64) : Decidable (FrameAddr f) := inferInstanceAs (Decidable (_ ∧ _))

/-- The number of the virtual page of an address. -/
def pageOf (virt : BitVec 64) : BitVec 64 := virt >>> 12

theorem tableIndex_val (virt : BitVec 64) (shift : ℕ) :
    (tableIndex virt shift : ℕ) = virt.toNat / 2 ^ shift % 512 := by
  rw [tableIndex]
  dsimp only
  rw [BitVec.toNat_and, BitVec.toNat_ushiftRight, Nat.shiftRight_eq_div_pow]
  exact Nat.and_two_pow_sub_one_eq_mod _ 9

/-- **Pages and indices.** -/
theorem tablePath_eq_iff (hv : Canonical v) (hw : Canonical w) :
    (tablePath w = tablePath v ∧ virtToIndices w 3 = virtToIndices v 3) ↔ pageOf w = pageOf v := by
  have hidx : ∀ u : BitVec 64, virtToIndices u 0 = tableIndex u 39 ∧
      virtToIndices u 1 = tableIndex u 30 ∧ virtToIndices u 2 = tableIndex u 21 ∧
      virtToIndices u 3 = tableIndex u 12 := fun _ ↦ ⟨rfl, rfl, rfl, rfl⟩
  rw [tablePath, tablePath, (hidx v).1, (hidx v).2.1, (hidx v).2.2.1, (hidx v).2.2.2, (hidx w).1,
    (hidx w).2.1, (hidx w).2.2.1, (hidx w).2.2.2]
  simp only [List.cons.injEq, and_true, Fin.ext_iff, tableIndex_val, pageOf, ← BitVec.toNat_inj,
    BitVec.toNat_ushiftRight, Nat.shiftRight_eq_div_pow]
  unfold Canonical at hv hw
  omega

/-! ## The map -/

/-- A partial map from virtual page numbers to physical frames. -/
abbrev PageMap := BitVec 64 → Option (BitVec 64)

namespace PageMap

/-- Bind a page, unless it is bound or the tables for it cannot be had. -/
def map (M : PageMap) (page phys : BitVec 64) (supplied : Bool) : Except MapError Unit × PageMap :=
  if (M page).isSome then (.error .alreadyMapped, M)
  else if supplied then (.ok (), Function.update M page (some phys))
  else (.error .outOfFrames, M)

/-- Take a binding away. -/
def unmap (M : PageMap) (page : BitVec 64) : Option (BitVec 64) × PageMap :=
  (M page, Function.update M page none)

/-- The frame of the page, and the low 12 bits of the address. -/
def translate (M : PageMap) (virt : BitVec 64) : Option (BitVec 64) :=
  (M (pageOf virt)).map fun frame ↦ frame + pageOffset virt

end PageMap

/-! ## The system -/

/-- A call of the walker. -/
inductive PagingCall
  | map (virt phys : BitVec 64) (flags : PageFlags)
  | unmap (virt : BitVec 64)
  | translate (virt : BitVec 64)

/-- What a call returns. -/
inductive PagingResult
  | mapped (r : Except MapError Unit)
  | unmapped (r : Option (BitVec 64))
  | translated (r : Option (BitVec 64))

/-- The address a call is about. -/
def PagingCall.target : PagingCall → BitVec 64
  | map virt _ _ => virt
  | unmap virt => virt
  | translate virt => virt

/-- Canonical virtual addresses, and page-aligned physical addresses below `2 ^ 52`. -/
def PagingCall.Legal : PagingCall → Prop
  | map virt phys _ => Canonical virt ∧ FrameAddr phys
  | unmap virt => Canonical virt
  | translate virt => Canonical virt

instance : (call : PagingCall) → Decidable call.Legal
  | .map _ _ _ => inferInstanceAs (Decidable (_ ∧ _))
  | .unmap virt => inferInstanceAs (Decidable (Canonical virt))
  | .translate virt => inferInstanceAs (Decidable (Canonical virt))

/-- Memory and allocator, with the map next to them. -/
structure PagingSys (σ : Type*) where
  mem : PhysMem
  frames : σ
  pages : PageMap

namespace PagingSys

variable (A root)

/-- The allocator can supply every table that is missing for `virt`. -/
def canSupply (s : PagingSys σ) (virt : BitVec 64) : Bool :=
  A.Supplies s.frames (missingTables s.mem (tablePath virt) root)

/-- One call of the walker, and one of the map. -/
def step (s : PagingSys σ) : PagingCall → PagingResult × PagingSys σ
  | .map virt phys flags =>
    let (r, mem, frames) := mapPageIn A root virt phys flags s.mem s.frames
    (.mapped r, ⟨mem, frames, (s.pages.map (pageOf virt) phys (s.canSupply A root virt)).2⟩)
  | .unmap virt =>
    let (r, mem) := unmapPageIn root virt s.mem
    (.unmapped r, ⟨mem, s.frames, (s.pages.unmap (pageOf virt)).2⟩)
  | .translate virt => (.translated (translateIn root virt s.mem), s)

/-- What the map answers. -/
def expected (s : PagingSys σ) : PagingCall → PagingResult
  | .map virt phys _ => .mapped (s.pages.map (pageOf virt) phys (s.canSupply A root virt)).1
  | .unmap virt => .unmapped (s.pages.unmap (pageOf virt)).1
  | .translate virt => .translated (s.pages.translate virt)

/-- The walker, from a zeroed PML4 and an allocator in the state `a₀`. -/
def machine (a₀ : σ) : Machine (PagingSys σ) PagingCall where
  init s := s.mem root = PageTable.empty ∧ s.frames = a₀ ∧ s.pages = fun _ ↦ none
  Legal _ call := call.Legal
  next s call := some (s.step A root call).2

instance (a₀ : σ) (s : PagingSys σ) (call : PagingCall) :
    Decidable ((machine A root a₀).Legal s call) := inferInstanceAs (Decidable call.Legal)

end PagingSys

/-- The runs of the walker. -/
def pagingSystem (A : FrameAllocator σ) (root : BitVec 64) (a₀ : σ) :
    TransitionSystem (PagingSys σ) PagingCall := (PagingSys.machine A root a₀).system

/-! ## Leaves -/

/-- The frame an entry maps, if any. -/
def decode (e : BitVec 64) : Option (BitVec 64) :=
  if e &&& ptePresent = 0 then none else some (e &&& pteAddrMask)

@[simp] theorem decode_zero : decode 0 = none := if_pos (zero_and_flags ptePresent)

theorem decode_leaf {f : BitVec 64} (hf : FrameAddr f) (flags : PageFlags) :
    decode (f ||| pteFlagsFrom flags) = some f := by
  rw [decode, if_neg (IsLeaf.present ⟨f, flags, hf, rfl⟩),
    hf.or_and_mask (pteFlagsFrom_spec flags).1]

/-- The leaf entry of an address. -/
def leafOf (m : PhysMem) (root virt : BitVec 64) : BitVec 64 :=
  leafEntry m root (tablePath virt) (virtToIndices virt (Fin.last 3))

theorem leafOf_eq (m : PhysMem) (root virt : BitVec 64) :
    leafOf m root virt = leafEntry m root (tablePath virt) (virtToIndices virt 3) := rfl

namespace Tables

theorem leafOf_of_walk {pt : BitVec 64} (h : walk (link m) root (tablePath virt) = some pt) :
    leafOf m root virt = (m pt).entries (virtToIndices virt 3) := by
  rw [leafOf_eq, leafEntry, h]

theorem leafOf_of_walk_none (h : walk (link m) root (tablePath virt) = none) :
    leafOf m root virt = 0 := by
  rw [leafOf_eq, leafEntry, h]

theorem leafOf_cases (h : Tables root used m) (virt : BitVec 64) :
    leafOf m root virt = 0 ∨ IsLeaf (leafOf m root virt) := by
  cases hpt : walk (link m) root (tablePath virt) with
  | none => exact .inl (leafOf_of_walk_none hpt)
  | some pt =>
    rw [leafOf_of_walk hpt]
    exact h.leaf _ pt _ rfl hpt

theorem missingTables_eq_zero {is : List (Fin 512)} {t pt : BitVec 64}
    (h : walk (link m) t is = some pt) : missingTables m is t = 0 := by
  induction is generalizing t with
  | nil => rfl
  | cons i is ih =>
    rw [walk_cons, link] at h
    by_cases hpresent : (m t).entries i &&& ptePresent = 0
    · rw [if_pos hpresent] at h
      cases h
    · rw [if_neg hpresent] at h
      exact (if_neg hpresent).trans (ih h)

/-- **`translate_in`** reads the leaf. -/
theorem translateIn_eq (h : Tables root used m) (virt : BitVec 64) :
    translateIn root virt m
      = (decode (leafOf m root virt)).map fun frame ↦ frame + pageOffset virt := by
  have hloop : translateLoop virt m 0 (tablePath virt) root
      = (walk (link m) root (tablePath virt)).elim (.error none) .ok :=
    h.translateLoop_eq (p := []) virt 0 rfl rfl
  rw [translateIn]
  dsimp only
  rw [← tablePath, hloop]
  cases hpt : walk (link m) root (tablePath virt) with
  | none =>
    rw [leafOf_of_walk_none hpt, decode_zero]
    rfl
  | some pt =>
    rw [Option.elim_some]
    dsimp only
    have hcases := h.leafOf_cases virt
    rw [leafOf_of_walk hpt] at hcases ⊢
    rw [decode]
    split_ifs with hpresent
    · rfl
    · obtain ⟨f, flags, hf, he⟩ := hcases.resolve_left fun h0 ↦
        hpresent (h0 ▸ zero_and_flags ptePresent)
      have hoff : f &&& pageOffset virt = 0 := by
        rw [pageOffset, BitVec.and_comm virt, ← BitVec.and_assoc, hf.and_eq_zero (by decide)]
        exact BitVec.zero_and
      rw [he, hf.or_and_mask (pteFlagsFrom_spec flags).1, Option.map_some,
        BitVec.add_eq_or_of_and_eq_zero _ _ hoff]

end Tables

/-! ## The refinement -/

namespace PagingSys

/-- **The refinement invariant**, `n` being the number of frames asked for so far. -/
structure Inv (A : FrameAllocator σ) (root : BitVec 64) (a₀ : σ) (n : ℕ) (s : PagingSys σ) :
    Prop where
  tables : Tables root (A.taken a₀ n) s.mem
  frames : s.frames = A.after a₀ n
  pages : ∀ v, Canonical v → s.pages (pageOf v) = decode (leafOf s.mem root v)

variable {s s' : PagingSys σ} {n : ℕ}

theorem inv_init (hs : (machine A root a₀).init s) : s.Inv A root a₀ 0 := by
  obtain ⟨hroot, hframes, hpages⟩ := hs
  have hzero : ∀ i, (s.mem root).entries i = 0 := fun i ↦ by
    rw [hroot]
    rfl
  refine ⟨.of_zero hzero, hframes, fun v _ ↦ ?_⟩
  rw [hpages, Tables.leafOf_of_walk_none (Tables.walk_cons_of_zero hzero _ _), decode_zero]

/-- Writing a leaf is updating the map at its page. -/
theorem pages_set_leaf {pt e : BitVec 64} {M : PageMap} (htables : Tables root used m)
    (hM : ∀ v, Canonical v → M (pageOf v) = decode (leafOf m root v)) (hvirt : Canonical virt)
    (hpt : walk (link m) root (tablePath virt) = some pt) (he : e = 0 ∨ IsLeaf e)
    (hv : Canonical v) : Function.update M (pageOf virt) (decode e) (pageOf v)
      = decode (leafOf (m.setEntry pt (virtToIndices virt 3) e) root v) := by
  have hleaf := (htables.set_leaf (i := virtToIndices virt 3) rfl hpt he).2 (tablePath v)
    (virtToIndices v 3) rfl
  rw [leafOf_eq, hleaf]
  by_cases hpage : pageOf v = pageOf virt
  · rw [if_pos ((tablePath_eq_iff hvirt hv).mpr hpage), hpage, Function.update_self]
  · rw [if_neg ((tablePath_eq_iff hvirt hv).not.mpr hpage), Function.update_of_ne hpage]
    exact hM v hv

theorem Inv.walk_of_bound (h : s.Inv A root a₀ n) (hvirt : Canonical virt)
    (hbound : (s.pages (pageOf virt)).isSome) :
    ∃ pt, walk (link s.mem) root (tablePath virt) = some pt := by
  cases hpt : walk (link s.mem) root (tablePath virt) with
  | none =>
    rw [h.pages virt hvirt, Tables.leafOf_of_walk_none hpt, decode_zero] at hbound
    cases hbound
  | some pt => exact ⟨pt, rfl⟩

/-- **`map_page_in`.** -/
theorem Inv.map (hA : A.Fresh root a₀) (h : s.Inv A root a₀ n) {phys : BitVec 64}
    {flags : PageFlags} (hvirt : Canonical virt) (hphys : FrameAddr phys) :
    (s.step A root (.map virt phys flags)).1 = s.expected A root (.map virt phys flags) ∧
    ∃ n', (s.step A root (.map virt phys flags)).2.Inv A root a₀ n' := by
  obtain ⟨r, m', n', hloop, htables, hleaf, hr⟩ :=
    h.tables.mapLoop_spec (l := tablePath virt) (p := []) hA rfl rfl
  rw [List.nil_append] at hr
  have hpages : ∀ v, Canonical v → s.pages (pageOf v) = decode (leafOf m' root v) := by
    intro v hv
    rw [h.pages v hv, leafOf_eq, leafOf_eq, hleaf _ _ rfl]
  have hsupply : s.canSupply A root virt
      = decide (A.Supplies (A.after a₀ n) (missingTables s.mem (tablePath virt) root)) := by
    rw [canSupply, h.frames]
  rw [step, expected, mapPageIn]
  dsimp only
  rw [← tablePath, h.frames, hloop]
  rcases hr with ⟨pt, rfl, hpt, hsupplies⟩ | ⟨rfl, hsupplies⟩
  · dsimp only
    have hcases := htables.leafOf_cases virt
    have hpage := hpages virt hvirt
    rw [Tables.leafOf_of_walk hpt] at hcases hpage
    rw [hsupply, decide_eq_true hsupplies, PageMap.map]
    by_cases hpresent : (m' pt).entries (virtToIndices virt 3) &&& ptePresent = 0
    · -- a free leaf
      rw [decode, if_pos hpresent] at hpage
      rw [if_neg (not_not.mpr hpresent), hpage]
      refine ⟨rfl, n', ?_⟩
      have he : IsLeaf (phys &&& pteAddrMask ||| pteFlagsFrom flags) :=
        ⟨phys, flags, hphys, by rw [hphys.and_mask]⟩
      refine ⟨(htables.set_leaf rfl hpt (.inr he)).1, rfl, fun v hv ↦ ?_⟩
      rw [← pages_set_leaf htables hpages hvirt hpt (.inr he) hv, hphys.and_mask,
        decode_leaf hphys flags]
      rfl
    · -- already mapped
      rw [decode, if_neg hpresent] at hpage
      rw [if_pos hpresent, hpage]
      exact ⟨rfl, n', htables, rfl, hpages⟩
  · -- out of frames: a bound page would have had all its tables
    dsimp only
    have hunbound : ¬(s.pages (pageOf virt)).isSome := fun hbound ↦ by
      obtain ⟨pt, hpt⟩ := h.walk_of_bound hvirt hbound
      rw [Tables.missingTables_eq_zero hpt] at hsupplies
      exact hsupplies fun k hk ↦ absurd hk (Nat.not_lt_zero k)
    rw [hsupply, decide_eq_false hsupplies, PageMap.map, if_neg hunbound]
    exact ⟨rfl, n', htables, rfl, hpages⟩

theorem Inv.unmap (h : s.Inv A root a₀ n) (hvirt : Canonical virt) :
    (s.step A root (.unmap virt)).1 = s.expected A root (.unmap virt) ∧
    (s.step A root (.unmap virt)).2.Inv A root a₀ n := by
  have hloop : unmapLoop s.mem (tablePath virt) root = walk (link s.mem) root (tablePath virt) :=
    h.tables.unmapLoop_eq (p := []) rfl rfl
  have hpage := h.pages virt hvirt
  rw [step, expected, unmapPageIn, PageMap.unmap]
  dsimp only
  rw [← tablePath, hloop]
  -- an unbound page stays unbound
  have hsame : s.pages (pageOf virt) = none → Inv A root a₀ n
      ⟨s.mem, s.frames, Function.update s.pages (pageOf virt) none⟩ := fun hnone ↦ by
    rw [← hnone, Function.update_eq_self]
    exact h
  cases hpt : walk (link s.mem) root (tablePath virt) with
  | none =>
    rw [Tables.leafOf_of_walk_none hpt, decode_zero] at hpage
    dsimp only
    rw [hpage]
    exact ⟨rfl, hsame hpage⟩
  | some pt =>
    rw [Tables.leafOf_of_walk hpt, decode] at hpage
    dsimp only
    split_ifs at hpage ⊢ with hpresent
    · rw [hpage]
      exact ⟨rfl, hsame hpage⟩
    · rw [hpage]
      refine ⟨rfl, (h.tables.set_leaf rfl hpt (.inl rfl)).1, h.frames, fun v hv ↦ ?_⟩
      rw [← pages_set_leaf h.tables h.pages hvirt hpt (.inl rfl) hv, decode_zero]

theorem Inv.translateIn_eq (h : s.Inv A root a₀ n) (hv : Canonical v) :
    translateIn root v s.mem = s.pages.translate v := by
  rw [h.tables.translateIn_eq, PageMap.translate, h.pages v hv]

theorem Inv.step_ok (hA : A.Fresh root a₀) (h : s.Inv A root a₀ n) {call : PagingCall}
    (hlegal : call.Legal) : (s.step A root call).1 = s.expected A root call ∧
    ∃ n', (s.step A root call).2.Inv A root a₀ n' := by
  cases call with
  | map virt phys flags => exact h.map hA hlegal.1 hlegal.2
  | unmap virt => exact ⟨(h.unmap hlegal).1, n, (h.unmap hlegal).2⟩
  | translate virt =>
    refine ⟨?_, n, h⟩
    rw [step, expected, h.translateIn_eq hlegal]

theorem inv_of_reachable (hA : A.Fresh root a₀) (h : (pagingSystem A root a₀).Reachable s) :
    ∃ n, s.Inv A root a₀ n := by
  refine h.invariant (P := fun s ↦ ∃ n, s.Inv A root a₀ n) (fun s hs ↦ ⟨0, inv_init hs⟩)
    fun s call s' _ ⟨n, hinv⟩ ⟨hlegal, hnext⟩ ↦ ?_
  obtain rfl := Option.some_inj.mp hnext
  exact (hinv.step_ok hA hlegal).2

theorem pages_step_of_ne (s : PagingSys σ) (call : PagingCall) {page : BitVec 64}
    (h : page ≠ pageOf call.target) : (s.step A root call).2.pages page = s.pages page := by
  cases call with
  | map virt phys flags =>
    show (s.pages.map (pageOf virt) phys (s.canSupply A root virt)).2 page = _
    rw [PageMap.map]
    split_ifs
    · rfl
    · exact Function.update_of_ne h _ _
    · rfl
  | unmap virt => exact Function.update_of_ne h _ _
  | translate virt => rfl

/-- What holds of the tables in every state. -/
structure Refines (A : FrameAllocator σ) (root : BitVec 64) (s : PagingSys σ) : Prop where
  /-- Translation reads the map. -/
  translate : ∀ v, Canonical v → translateIn root v s.mem = s.pages.translate v
  /-- No table is reached along two paths. -/
  tree : IsTree (link s.mem) root 3
  /-- A call answers as the map does. -/
  answer : ∀ call : PagingCall, call.Legal → (s.step A root call).1 = s.expected A root call
  /-- A call about one page changes the translation of no other. -/
  frame : ∀ call : PagingCall, call.Legal → ∀ v, Canonical v → pageOf v ≠ pageOf call.target →
    translateIn root v (s.step A root call).2.mem = translateIn root v s.mem

end PagingSys

/-- **The page-table walker refines a partial map from pages to frames.** -/
theorem paging_refines (hA : A.Fresh root a₀) {s : PagingSys σ}
    (hs : (pagingSystem A root a₀).Reachable s) : s.Refines A root := by
  obtain ⟨n, hinv⟩ := PagingSys.inv_of_reachable hA hs
  refine ⟨fun v hv ↦ hinv.translateIn_eq hv, hinv.tables.tree,
    fun call hlegal ↦ (hinv.step_ok hA hlegal).1, fun call hlegal v hv hne ↦ ?_⟩
  obtain ⟨n', hinv'⟩ := (hinv.step_ok hA hlegal).2
  rw [hinv'.translateIn_eq hv, hinv.translateIn_eq hv, PageMap.translate, PageMap.translate,
    PagingSys.pages_step_of_ne s call hne]

/-! ## A pool of frames -/

/-- A bump allocator over a pool of 64 frames, the state being the next one. -/
def pool : FrameAllocator ℕ where
  allocZeroed n := if n < 64 then (some (BitVec.ofNat 64 (4096 * n)), n + 1) else (none, n)
  free _ n := n

theorem pool_after (n : ℕ) : pool.after 1 n = min (n + 1) 64 := by
  induction n with
  | zero => rfl
  | succ n ih =>
    rw [FrameAllocator.after_succ, ih, pool]
    dsimp only
    split_ifs <;> dsimp only <;> omega

theorem pool_answer {n : ℕ} {f : BitVec 64} (h : pool.answer 1 n = some f) :
    n < 63 ∧ f.toNat = 4096 * (n + 1) := by
  rw [FrameAllocator.answer, pool_after, pool] at h
  dsimp only at h
  split_ifs at h with hn
  obtain rfl := Option.some_inj.mp h
  rw [BitVec.toNat_ofNat]
  omega

theorem pool_fresh : pool.Fresh 0 1 where
  frame n f h := by
    obtain ⟨hn, hf⟩ := pool_answer h
    refine ⟨by unfold FrameAddr; omega, fun h0 ↦ ?_⟩
    rw [h0] at hf
    exact absurd hf (by simp)
  distinct i j f hi hj := by
    have := (pool_answer hi).2
    have := (pool_answer hj).2
    omega

/-- A page mapped, looked up and unmapped, with root 0 and frames from the pool. -/
theorem paging_refines_pool : PagingSys.Refines pool 0
    (((PagingSys.machine pool 0 1).run
      [.map 0x7F0012345000 0x10000 .write, .translate 0x7F0012345040, .unmap 0x7F0012345000]
      ⟨fun _ ↦ PageTable.empty, 1, fun _ ↦ none⟩).get (by decide +kernel)) :=
  paging_refines pool_fresh (Machine.reachable_run (.init ⟨rfl, rfl, rfl⟩) (Option.some_get _).symm)

end Zeroxos
