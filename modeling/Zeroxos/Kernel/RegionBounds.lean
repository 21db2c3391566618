import Zeroxos.Kernel.MemoryManager

/-!
# What a registered region gives out

`register_region` takes a region in bytes and rounds its base and its length down to pages, each on
its own. A base inside a page therefore lets in the whole of that page, bytes before the region
included, and since every page that is free is handed out if one only allocates long enough, that
page is. The region is kept exactly when its base starts a page, or when it is too short to give any
page at all.
-/

namespace Zeroxos

open Block BuddyAllocator BuddySys

/-- The allocator right after `register_region` on an empty manager. -/
def Registered (base len : ℕ) (s : BuddySys) : Prop :=
  ∃ m, MemoryManager.new.registerRegion base len = .ok m ∧
    s = ⟨m.buddy, {}, if 0 < len / pageSize then [⟨base / pageSize, len / pageSize⟩] else [], 0⟩

/-- The call allocates, or frees what was allocated. -/
def BuddyCall.AllocOrFree : BuddyCall → Prop
  | .addRegion _ _ => False
  | .alloc _ => True
  | .free _ _ => True

/-- The runs after `register_region` that allocate and free, blocks of any order. -/
def regionSystem (base len : ℕ) : TransitionSystem BuddySys BuddyCall where
  init := Registered base len
  step s call s' := call.AllocOrFree ∧ (buddySystem 0).step s call s'

/-- **The region is kept**: all the pages of every block that any run allocates lie inside it. -/
def RegionKept (base len : ℕ) : Prop :=
  ∀ s, (regionSystem base len).Reachable s → ∀ k f s', s.step (.alloc k) = .ok (some f, s') →
    ∀ p, f ≤ p → p < f + 2 ^ k → base ≤ pageSize * p ∧ pageSize * (p + 1) ≤ base + len

namespace RegionBounds

variable {base len p : ℕ} {s s' : BuddySys}

theorem exists_registered (h : base + len < wordSize) :
    ∃ s, Registered base len s ∧ s.Inv ∧
      s.registered = if 0 < len / pageSize then [⟨base / pageSize, len / pageSize⟩] else [] := by
  by_cases hpages : 0 < len / pageSize
  · have hle : base / pageSize + len / pageSize < wordSize :=
      lt_of_le_of_lt (Nat.add_le_add (Nat.div_le_self _ _) (Nat.div_le_self _ _)) h
    obtain ⟨b, hadd, hinv⟩ := inv_new.addRegion_ok ⟨hle, List.forall_mem_nil _⟩
    have hadd' : addRegion (base / pageSize) (len / pageSize) MemoryManager.new.buddy = .ok b :=
      hadd
    refine ⟨_, ⟨{ MemoryManager.new with buddy := b }, ?_, ?_⟩, hinv, (if_pos hpages).symm⟩
    · rw [MemoryManager.registerRegion, if_pos hpages, hadd']
      rfl
    · rw [if_pos hpages]
      rfl
  · refine ⟨_, ⟨MemoryManager.new, ?_, ?_⟩, inv_new, (if_neg hpages).symm⟩
    · rw [MemoryManager.registerRegion, if_neg hpages]
    · rw [if_neg hpages]
      rfl

theorem Registered.unique (h : Registered base len s) (h' : Registered base len s') : s = s' := by
  obtain ⟨m, hm, rfl⟩ := h
  obtain ⟨m', hm', rfl⟩ := h'
  rw [Except.ok.inj (hm.symm.trans hm')]

theorem inv_of_reachable (h : base + len < wordSize) (hs : (regionSystem base len).Reachable s) :
    s.Inv ∧
      s.registered = if 0 < len / pageSize then [⟨base / pageSize, len / pageSize⟩] else [] := by
  apply hs.invariant
  · intro s hs
    obtain ⟨s', hs', hinv⟩ := exists_registered h
    exact Registered.unique hs hs' ▸ hinv
  · rintro s call s' - ⟨hinv, hregistered⟩ ⟨hcall, hlegal, hnext⟩
    rw [← hregistered]
    obtain ⟨r, hstep⟩ := step_of_next hnext
    rcases call with ⟨start, pageCount⟩ | k | ⟨frame, order⟩
    · exact hcall.elim
    · obtain ⟨r', t, hstep', htally, hsame, -⟩ := hinv.tally.step_alloc k
      obtain ⟨-, rfl⟩ := Prod.mk.inj (Except.ok.inj (hstep.symm.trans hstep'))
      exact ⟨htally.inv_of_registered hinv hsame, hsame⟩
    · obtain ⟨t, hstep', htally, hsame, -⟩ := hinv.tally.step_free hlegal
      obtain ⟨-, rfl⟩ := Prod.mk.inj (Except.ok.inj (hstep.symm.trans hstep'))
      exact ⟨htally.inv_of_registered hinv hsame, hsame⟩

theorem mem_registeredCells_of_alloc (hinv : s.Inv) {k f : ℕ}
    (hstep : s.step (.alloc k) = .ok (some f, s')) (hf : f ≤ p) (hp : p < f + 2 ^ k) :
    p ∈ s.registeredCells := by
  obtain ⟨r, t, hstep', -, hreturns⟩ := step_alloc hinv k
  obtain ⟨rfl, rfl⟩ := Prod.mk.inj (Except.ok.inj (hstep.symm.trans hstep'))
  obtain ⟨-, -, -, hcells, -⟩ := hreturns
  obtain ⟨b, hb, hpb⟩ := hcells p hf hp
  rw [← hinv.cover_eq]
  exact Multiset.mem_add.mpr (.inl (mem_cover.mpr ⟨b, hb, hpb⟩))

/-- **A free page is handed out** by a run that goes on allocating single pages. -/
theorem exists_alloc_of_mem (h : base + len < wordSize) (hs : (regionSystem base len).Reachable s)
    (hp : p ∈ cover cells s.buddy.freeBlocks) :
    ∃ t t', (regionSystem base len).Reachable t ∧ t.step (.alloc 0) = .ok (some p, t') := by
  -- by induction on the number of free pages: each allocation returns `p` or leaves it free
  generalize hn : (cover cells s.buddy.freeBlocks).card = n
  induction n generalizing s with
  | zero =>
    rw [Multiset.card_eq_zero] at hn
    exact absurd (hn ▸ hp) (Multiset.notMem_zero p)
  | succ n ih =>
    obtain ⟨hinv, -⟩ := inv_of_reachable h hs
    obtain ⟨b, hb, -⟩ := mem_cover.mp hp
    obtain ⟨f, b', halloc, -, -, -, hcover, -, -⟩ :=
      alloc_spec hinv.tally (k := 0) ⟨b, hb, Nat.zero_le _⟩
    have hstep : ∃ s', s.step (.alloc 0) = .ok (some f, s') ∧ s'.buddy = b' := by
      rw [step, halloc]
      exact ⟨_, rfl, rfl⟩
    obtain ⟨s', hstep, rfl⟩ := hstep
    have hcells : (⟨f, 0⟩ : Block).cells.val = {f} := by simp [cells]
    rw [hcells] at hcover
    rw [← hcover, Multiset.mem_add, Multiset.mem_singleton] at hp
    rw [← hcover, Multiset.card_add, Multiset.card_singleton] at hn
    rcases hp with hp | rfl
    · have hreached : (regionSystem base len).Reachable s' :=
        .step hs (e := .alloc 0) ⟨trivial, trivial, next_of_step hstep⟩
      exact ih hreached hp (Nat.succ_injective hn)
    · exact ⟨s, s', hs, hstep⟩

/-- A region that begins inside a page and holds one loses that page's first bytes to it: the page
is free after the registration, and handed out in the end. -/
theorem not_kept (h : base + len < wordSize) (hbase : base % pageSize ≠ 0)
    (hlen : pageSize ≤ len) : ¬RegionKept base len := by
  intro hkept
  have hpages : 0 < len / pageSize := Nat.div_pos hlen (by norm_num [pageSize])
  obtain ⟨s, hs, hinv, hregistered⟩ := exists_registered h
  have hfirst : base / pageSize ∈ cover cells s.buddy.freeBlocks := by
    obtain ⟨m, -, rfl⟩ := hs
    have hcover := hinv.cover_eq
    rw [cover_zero, add_zero] at hcover
    rw [hcover, mem_registeredCells, hregistered, if_pos hpages]
    exact ⟨_, List.mem_singleton_self _, Span.mem_cells.mpr ⟨le_rfl, by dsimp only; omega⟩⟩
  obtain ⟨t, t', ht, hstep⟩ := exists_alloc_of_mem h (.init hs) hfirst
  have hle := (hkept t ht 0 _ t' hstep (base / pageSize) le_rfl (Nat.lt_succ_self _)).1
  have hdiv := Nat.div_add_mod base pageSize
  omega

theorem page_within {p : ℕ} (hbase : base % pageSize = 0) (hlow : base / pageSize ≤ p)
    (hhigh : p + 1 ≤ base / pageSize + len / pageSize) :
    base ≤ pageSize * p ∧ pageSize * (p + 1) ≤ base + len := by
  have hdiv := Nat.div_add_mod base pageSize
  have hmul := Nat.mul_div_le len pageSize
  constructor
  · calc base = pageSize * (base / pageSize) := by omega
      _ ≤ pageSize * p := Nat.mul_le_mul_left _ hlow
  · calc pageSize * (p + 1) ≤ pageSize * (base / pageSize + len / pageSize) :=
          Nat.mul_le_mul_left _ hhigh
      _ = pageSize * (base / pageSize) + pageSize * (len / pageSize) := Nat.mul_add _ _ _
      _ ≤ base + len := by omega

theorem kept_of_round (h : base + len < wordSize)
    (hround : base % pageSize = 0 ∨ len < pageSize) : RegionKept base len := by
  intro s hs k f s' hstep p hf hp
  obtain ⟨hinv, hregistered⟩ := inv_of_reachable h hs
  have hmem := mem_registeredCells_of_alloc hinv hstep hf hp
  rw [mem_registeredCells, hregistered] at hmem
  obtain ⟨r, hr, hpr⟩ := hmem
  split_ifs at hr with hpages
  · obtain rfl := List.mem_singleton.mp hr
    obtain ⟨hlow, hhigh⟩ := Span.mem_cells.mp hpr
    have hlen : pageSize ≤ len := (Nat.div_pos_iff.mp hpages).2
    exact page_within (hround.resolve_right (not_lt.mpr hlen)) hlow hhigh
  · exact absurd hr List.not_mem_nil

end RegionBounds

open RegionBounds in
/-- **Only memory inside the region is allocated** exactly when the region begins at a page, or is
shorter than one. -/
theorem region_kept_iff (base len : ℕ) (h : base + len < wordSize) :
    RegionKept base len ↔ base % pageSize = 0 ∨ len < pageSize := by
  refine ⟨fun hkept ↦ ?_, kept_of_round h⟩
  by_contra hne
  push Not at hne
  exact not_kept h hne.1 hne.2 hkept

/-- A region of a page, at a page. -/
theorem region_kept_aligned : RegionKept 8192 4096 :=
  (region_kept_iff 8192 4096 (by norm_num [wordSize])).mpr (.inl rfl)

open RegionBounds in
/-- **A page before the region is allocated** when the region begins inside it. -/
theorem region_left : ¬∀ base len, base + len < wordSize → RegionKept base len := by
  intro h
  have hword : 6144 + 4096 < wordSize := by norm_num [wordSize]
  exact not_kept hword (by decide) (by decide) (h 6144 4096 hword)

end Zeroxos
