import Zeroxos.Hal.Paging
import Zeroxos.Library.StoreTree

/-!
# The tables form a tree

Every entry the walker writes is a frame address with flag bits around it, and the two never
overlap, so an entry can be taken apart again (`and_pteAddrMask`, `and_flags`).

## The invariant

The links a table holds are those of a tree in the sense of the library, three levels deep, and
`Tables` is the invariant: the links are a tree, an intermediate entry is empty or links a frame, a
leaf is empty or maps one, and every table below the root was handed out by the allocator.

## The loops

The loops are specified against the tree. `mapLoop` follows or makes the path it is given and leaves
every leaf as it was; the loops of `translate_in` and `unmap_page_in` follow the path, and no huge
page is ever met. Nothing after this module looks at a table entry by entry.
-/

namespace Zeroxos

/-! ## Entries -/

/-- A page-aligned physical address below `2 ^ 52`. -/
def FrameAddr (f : BitVec 64) : Prop := f.toNat % 4096 = 0 ∧ f.toNat < 2 ^ 52

/-- The flags of an intermediate entry. -/
def linkFlags : BitVec 64 := ptePresent ||| pteWritable ||| pteUser

section Entries

variable {f c k : BitVec 64}

theorem getLsbD_pteAddrMask (i : ℕ) :
    pteAddrMask.getLsbD i = (decide (12 ≤ i) && decide (i < 52)) := by
  by_cases hi : i < 64
  · exact (by decide : ∀ i : Fin 64, pteAddrMask.getLsbD i
      = (decide (12 ≤ (i : ℕ)) && decide ((i : ℕ) < 52))) ⟨i, hi⟩
  · rw [BitVec.getLsbD_of_ge _ _ (by omega), decide_eq_false (by omega : ¬i < 52), Bool.and_false]

theorem zero_and_flags (k : BitVec 64) : (0 : BitVec 64) &&& k = 0 := BitVec.zero_and

theorem FrameAddr.and_mask (hf : FrameAddr f) : f &&& pteAddrMask = f := by
  refine BitVec.eq_of_getLsbD_eq fun i _ ↦ ?_
  rw [BitVec.getLsbD_and, getLsbD_pteAddrMask]
  by_cases hlow : i < 12
  · have hbit : f.getLsbD i = false := by
      have hmod : (f.toNat % 2 ^ 12).testBit i = f.toNat.testBit i := by
        rw [Nat.testBit_mod_two_pow, decide_eq_true hlow, Bool.true_and]
      have hzero : f.toNat % 2 ^ 12 = 0 := hf.1
      rw [← BitVec.testBit_toNat, ← hmod, hzero, Nat.zero_testBit]
    rw [hbit, Bool.false_and]
  · by_cases hhigh : i < 52
    · rw [decide_eq_true (not_lt.mp hlow), decide_eq_true hhigh, Bool.and_self, Bool.and_true]
    · have hbit : f.getLsbD i = false := by
        rw [← BitVec.testBit_toNat]
        exact Nat.testBit_lt_two_pow
          (hf.2.trans_le (Nat.pow_le_pow_right Nat.two_pos (not_lt.mp hhigh)))
      rw [hbit, Bool.false_and]

theorem FrameAddr.and_eq_zero (hf : FrameAddr f) (hk : pteAddrMask &&& k = 0) : f &&& k = 0 := by
  rw [← hf.and_mask, BitVec.and_assoc, hk]
  exact BitVec.and_zero

theorem FrameAddr.or_and_mask (hf : FrameAddr f) (hc : c &&& pteAddrMask = 0) :
    (f ||| c) &&& pteAddrMask = f := by
  rw [BitVec.and_or_distrib_right, hf.and_mask, hc]
  exact BitVec.or_zero

theorem FrameAddr.or_and_flags (hf : FrameAddr f) (hk : pteAddrMask &&& k = 0) :
    (f ||| c) &&& k = c &&& k := by
  rw [BitVec.and_or_distrib_right, hf.and_eq_zero hk]
  exact BitVec.zero_or

/-- Whatever is asked for, the flags of a leaf say present and not huge and stay off the address. -/
theorem pteFlagsFrom_spec (flags : PageFlags) : pteFlagsFrom flags &&& pteAddrMask = 0 ∧
    pteFlagsFrom flags &&& ptePresent = ptePresent ∧ pteFlagsFrom flags &&& pteHuge = 0 := by
  unfold pteFlagsFrom
  generalize flags.contains .write = w, flags.contains .user = u,
    flags.contains .writeThrough = t, flags.contains .cacheDisable = d,
    flags.contains .global = g, flags.contains .exec = x
  revert w u t d g x
  decide

theorem linkFlags_spec : linkFlags &&& pteAddrMask = 0 ∧ linkFlags &&& ptePresent = ptePresent ∧
    linkFlags &&& pteHuge = 0 := by decide

/-- The flags as `map_page_in` sets them, one after the other. -/
theorem or_linkFlags : f ||| ptePresent ||| pteWritable ||| pteUser = f ||| linkFlags := by
  rw [linkFlags, BitVec.or_assoc, BitVec.or_assoc, BitVec.or_assoc]

theorem ptePresent_ne_zero : ptePresent ≠ 0 := by decide

end Entries

/-- An entry that links a table. -/
def IsLink (e : BitVec 64) : Prop := ∃ f, FrameAddr f ∧ e = f ||| linkFlags

/-- An entry that maps a page. -/
def IsLeaf (e : BitVec 64) : Prop := ∃ f flags, FrameAddr f ∧ e = f ||| pteFlagsFrom flags

theorem IsLink.present {e : BitVec 64} (h : IsLink e) : e &&& ptePresent ≠ 0 := by
  obtain ⟨f, hf, rfl⟩ := h
  rw [hf.or_and_flags (by decide), linkFlags_spec.2.1]
  exact ptePresent_ne_zero

theorem IsLink.not_huge {e : BitVec 64} (h : IsLink e) : e &&& pteHuge = 0 := by
  obtain ⟨f, hf, rfl⟩ := h
  rw [hf.or_and_flags (by decide), linkFlags_spec.2.2]

theorem IsLeaf.present {e : BitVec 64} (h : IsLeaf e) : e &&& ptePresent ≠ 0 := by
  obtain ⟨f, flags, hf, rfl⟩ := h
  rw [hf.or_and_flags (by decide), (pteFlagsFrom_spec flags).2.1]
  exact ptePresent_ne_zero

/-! ## Memory -/

namespace PhysMem

variable {m : PhysMem} {t t' new e : BitVec 64} {i j : Fin 512}

theorem entries_setEntry : (m.setEntry t i e t).entries = Function.update (m t).entries i e := by
  rw [setEntry, Function.update_self]

theorem setEntry_of_ne (h : t' ≠ t) : m.setEntry t i e t' = m t' := Function.update_of_ne h _ _

theorem entries_zero : (m.zero new new).entries j = 0 := by
  rw [zero, Function.update_self]
  rfl

theorem zero_of_ne (h : t' ≠ new) : m.zero new t' = m t' := Function.update_of_ne h _ _

/-- The memory with a fresh table at `new`, linked by entry `i` of the table at `t`. -/
abbrev withTable (m : PhysMem) (t : BitVec 64) (i : Fin 512) (new : BitVec 64) : PhysMem :=
  (m.zero new).setEntry t i (new ||| linkFlags)

theorem entries_withTable_new (h : t ≠ new) : (m.withTable t i new new).entries j = 0 := by
  rw [withTable, setEntry_of_ne h.symm, entries_zero]

theorem entries_withTable_self (h : t ≠ new) :
    (m.withTable t i new t).entries = Function.update (m t).entries i (new ||| linkFlags) := by
  rw [withTable, entries_setEntry, zero_of_ne h]

theorem withTable_of_ne (ht : t' ≠ t) (hnew : t' ≠ new) : m.withTable t i new t' = m t' := by
  rw [withTable, setEntry_of_ne ht, zero_of_ne hnew]

end PhysMem

/-- The table an entry links to. -/
def link (m : PhysMem) (table : BitVec 64) (i : Fin 512) : Option (BitVec 64) :=
  if (m table).entries i &&& ptePresent = 0 then none
  else some ((m table).entries i &&& pteAddrMask)

/-- The leaf entry `i` of the page table at the end of the path `p`, empty when there is none. -/
def leafEntry (m : PhysMem) (root : BitVec 64) (p : List (Fin 512)) (i : Fin 512) : BitVec 64 :=
  match walk (link m) root p with
  | none => 0
  | some pt => (m pt).entries i

/-- **The invariant.** The tables handed out are those in `used`. -/
structure Tables (root : BitVec 64) (used : Set (BitVec 64)) (m : PhysMem) : Prop where
  tree : IsTree (link m) root 3
  entry : ∀ p t i, p.length ≤ 2 → walk (link m) root p = some t →
    (m t).entries i = 0 ∨ IsLink ((m t).entries i)
  leaf : ∀ p t i, p.length = 3 → walk (link m) root p = some t →
    (m t).entries i = 0 ∨ IsLeaf ((m t).entries i)
  mem_used : ∀ p t, p.length ≤ 3 → walk (link m) root p = some t → t = root ∨ t ∈ used

namespace Tables

variable {root t new e : BitVec 64} {used : Set (BitVec 64)} {m : PhysMem}
  {p q : List (Fin 512)} {i j : Fin 512}

theorem mono {used' : Set (BitVec 64)} (h : Tables root used m) (hle : used ⊆ used') :
    Tables root used' m :=
  { h with mem_used := fun p t hp ht ↦ (h.mem_used p t hp ht).imp_right fun hu ↦ hle hu }

theorem link_eq_none (he : (m t).entries i = 0) : link m t i = none := by
  rw [link, he]
  exact if_pos (zero_and_flags ptePresent)

theorem link_of_isLink (he : IsLink ((m t).entries i)) :
    link m t i = some ((m t).entries i &&& pteAddrMask) := if_neg he.present

theorem walk_of_zero (hzero : ∀ i, (m root).entries i = 0) (ht : walk (link m) root p = some t) :
    p = [] ∧ t = root := by
  cases p with
  | nil => exact ⟨rfl, (Option.some_inj.mp ht).symm⟩
  | cons i p =>
    rw [walk_cons, link_eq_none (hzero i)] at ht
    cases ht

theorem walk_cons_of_zero (hzero : ∀ i, (m root).entries i = 0) (i : Fin 512)
    (p : List (Fin 512)) : walk (link m) root (i :: p) = none := by
  rw [walk_cons, link_eq_none (hzero i)]
  rfl

/-- A zeroed PML4 is a tree, whatever the rest of memory holds. -/
theorem of_zero (hzero : ∀ i, (m root).entries i = 0) : Tables root used m where
  tree p q t _ _ hp hq := by rw [(walk_of_zero hzero hp).1, (walk_of_zero hzero hq).1]
  entry p t i _ ht := .inl ((walk_of_zero hzero ht).2 ▸ hzero i)
  leaf p t i hp ht := absurd ((walk_of_zero hzero ht).1 ▸ hp) (by simp)
  mem_used p t _ ht := .inl (walk_of_zero hzero ht).2

section LinkNew

variable (h : Tables root used m) (hp : p.length ≤ 2) (ht : walk (link m) root p = some t)
  (hempty : (m t).entries i = 0) (hnew : FrameAddr new) (hroot : new ≠ root) (hused : new ∉ used)

include h hroot hused

theorem walk_ne_new (hq : q.length ≤ 3) : walk (link m) root q ≠ some new :=
  fun hw ↦ (h.mem_used q new hq hw).elim hroot hused

theorem ne_new {b : BitVec 64} (hq : q.length ≤ 3) (hb : walk (link m) root q = some b) :
    b ≠ new := by
  rintro rfl
  exact h.walk_ne_new hroot hused hq hb

include hp ht

theorem withTable_new (j : Fin 512) : (m.withTable t i new new).entries j = 0 :=
  PhysMem.entries_withTable_new (h.ne_new hroot hused (by omega) ht)

theorem withTable_self :
    (m.withTable t i new t).entries = Function.update (m t).entries i (new ||| linkFlags) :=
  PhysMem.entries_withTable_self (h.ne_new hroot hused (by omega) ht)

theorem withTable_leaf {b : BitVec 64} (hq : q.length = 3) (hb : walk (link m) root q = some b) :
    m.withTable t i new b = m b := by
  have hqp : q ≠ p := by
    rintro rfl
    omega
  exact PhysMem.withTable_of_ne (h.tree.ne_of_path_ne hq.le (by omega) hb ht hqp)
    (h.ne_new hroot hused hq.le hb)

include hempty hnew

theorem withTable_tree : IsTree (link (m.withTable t i new)) root 3 ∧
    ∀ q : List (Fin 512), q.length ≤ 3 → walk (link (m.withTable t i new)) root q =
      if q = p ++ [i] then some new else walk (link m) root q := by
  have hplt : p.length < 3 := by omega
  have hself := h.withTable_self (i := i) hp ht hroot hused
  have hfresh : ∀ q : List (Fin 512), q.length ≤ 3 → walk (link m) root q ≠ some new :=
    fun q hq ↦ h.walk_ne_new hroot hused hq
  have hlink : link (m.withTable t i new) t i = some new := by
    have hlinked : IsLink ((m.withTable t i new t).entries i) :=
      ⟨new, hnew, by rw [hself, Function.update_self]⟩
    rw [link_of_isLink hlinked, hself, Function.update_self, hnew.or_and_mask linkFlags_spec.1]
  have hrest : ∀ j, j ≠ i → link (m.withTable t i new) t j = link m t j := fun j hj ↦ by
    rw [link, link, hself, Function.update_of_ne hj]
  have hnone : ∀ j, link (m.withTable t i new) new j = none := fun j ↦
    link_eq_none (h.withTable_new hp ht hroot hused j)
  have heq : ∀ b, b ≠ t → b ≠ new → link (m.withTable t i new) b = link m b := fun b hbt hbn ↦ by
    funext j
    rw [link, link, PhysMem.withTable_of_ne hbt hbn]
  exact ⟨h.tree.link hplt ht (link_eq_none hempty) hfresh hnone hlink hrest heq, fun q hq ↦
    h.tree.walk_link hplt ht (link_eq_none hempty) hfresh hnone hlink hrest heq hq⟩

theorem withTable_tables : Tables root (insert new used) (m.withTable t i new) := by
  obtain ⟨htree, hwalk⟩ := h.withTable_tree hp ht hempty hnew hroot hused
  have hself := h.withTable_self (i := i) hp ht hroot hused
  have hzero := h.withTable_new (i := i) hp ht hroot hused
  refine ⟨htree, fun q b j hq hb ↦ ?_, fun q b j hq hb ↦ ?_, fun q b hq hb ↦ ?_⟩
  · rw [hwalk q (by omega)] at hb
    split_ifs at hb with hqp
    · obtain rfl := Option.some_inj.mp hb
      exact .inl (hzero j)
    · by_cases hbt : b = t
      · subst hbt
        by_cases hj : j = i
        · exact .inr ⟨new, hnew, by rw [hj, hself, Function.update_self]⟩
        · rw [hself, Function.update_of_ne hj]
          exact h.entry q b j hq hb
      · rw [PhysMem.withTable_of_ne hbt (h.ne_new hroot hused (by omega) hb)]
        exact h.entry q b j hq hb
  · rw [hwalk q hq.le] at hb
    split_ifs at hb with hqp
    · obtain rfl := Option.some_inj.mp hb
      exact .inl (hzero j)
    · rw [h.withTable_leaf hp ht hroot hused hq hb]
      exact h.leaf q b j hq hb
  · rw [hwalk q hq] at hb
    split_ifs at hb with hqp
    · exact .inr (Option.some_inj.mp hb ▸ Set.mem_insert new used)
    · exact (h.mem_used q b hq hb).imp_right (Set.mem_insert_of_mem new)

theorem withTable_leafEntry (j : Fin 512) (hq : q.length = 3) :
    leafEntry (m.withTable t i new) root q j = leafEntry m root q j := by
  obtain ⟨-, hwalk⟩ := h.withTable_tree hp ht hempty hnew hroot hused
  rw [leafEntry, leafEntry, hwalk q hq.le]
  split_ifs with hqp
  · -- the new page table is empty, and there was none before
    have hbefore : walk (link m) root q = none := by
      rw [hqp, walk_concat, ht, Option.bind_some, link_eq_none hempty]
    rw [hbefore]
    exact h.withTable_new hp ht hroot hused j
  · cases hb : walk (link m) root q with
    | none => rfl
    | some b =>
      dsimp only
      rw [h.withTable_leaf hp ht hroot hused hq hb]

theorem link_new :
    Tables root (insert new used) (m.withTable t i new) ∧
    walk (link (m.withTable t i new)) root (p ++ [i]) = some new ∧
    (∀ j, (m.withTable t i new new).entries j = 0) ∧
    ∀ q j, q.length = 3 →
      leafEntry (m.withTable t i new) root q j = leafEntry m root q j := by
  obtain ⟨-, hwalk⟩ := h.withTable_tree hp ht hempty hnew hroot hused
  refine ⟨h.withTable_tables hp ht hempty hnew hroot hused, ?_,
    h.withTable_new hp ht hroot hused,
    fun q j hq ↦ h.withTable_leafEntry hp ht hempty hnew hroot hused j hq⟩
  rw [hwalk _ (by rw [List.length_append, List.length_singleton]; omega), if_pos rfl]

end LinkNew

theorem set_leaf (h : Tables root used m) (hp : p.length = 3) (ht : walk (link m) root p = some t)
    (he : e = 0 ∨ IsLeaf e) :
    Tables root used (m.setEntry t i e) ∧
    ∀ q j, q.length = 3 → leafEntry (m.setEntry t i e) root q j
      = if q = p ∧ j = i then e else leafEntry m root q j := by
  have hother : ∀ b, b ≠ t → m.setEntry t i e b = m b := fun b hb ↦ PhysMem.setEntry_of_ne hb
  have hwalk : ∀ q, q.length ≤ 3 →
      walk (link (m.setEntry t i e)) root q = walk (link m) root q := by
    refine fun q hq ↦ h.tree.walk_of_eq_off hp ht (fun b hb ↦ ?_) hq
    funext j
    rw [link, link, hother b hb]
  refine ⟨⟨fun q₁ q₂ b h₁ h₂ hb₁ hb₂ ↦ ?_, fun q b j hq hb ↦ ?_, fun q b j hq hb ↦ ?_,
    fun q b hq hb ↦ ?_⟩, fun q j hq ↦ ?_⟩
  · rw [hwalk _ h₁] at hb₁
    rw [hwalk _ h₂] at hb₂
    exact h.tree h₁ h₂ hb₁ hb₂
  · rw [hwalk q (by omega)] at hb
    have hqp : q ≠ p := by
      rintro rfl
      omega
    have hbt := h.tree.ne_of_path_ne (by omega) hp.le hb ht hqp
    rw [hother b hbt]
    exact h.entry q b j hq hb
  · rw [hwalk q hq.le] at hb
    by_cases hbt : b = t
    · subst hbt
      rw [PhysMem.entries_setEntry]
      by_cases hj : j = i
      · rw [hj, Function.update_self]
        exact he
      · rw [Function.update_of_ne hj]
        exact h.leaf q b j hq hb
    · rw [hother b hbt]
      exact h.leaf q b j hq hb
  · rw [hwalk q hq] at hb
    exact h.mem_used q b hq hb
  · rw [leafEntry, leafEntry, hwalk q hq.le]
    by_cases hqp : q = p
    · subst hqp
      rw [ht]
      dsimp only
      rw [PhysMem.entries_setEntry]
      by_cases hj : j = i
      · rw [if_pos ⟨rfl, hj⟩, hj, Function.update_self]
      · rw [if_neg fun h ↦ hj h.2, Function.update_of_ne hj]
    · rw [if_neg fun h ↦ hqp h.1]
      cases hb : walk (link m) root q with
      | none => rfl
      | some b =>
        have hbt := h.tree.ne_of_path_ne hq.le hp.le hb ht hqp
        dsimp only
        rw [hother b hbt]

end Tables

/-! ## The allocator -/

namespace FrameAllocator

variable {σ : Type*} (A : FrameAllocator σ)

/-- The allocator after `n` calls of `alloc_zeroed`. -/
def after (a : σ) : ℕ → σ
  | 0 => a
  | n + 1 => after (A.allocZeroed a).2 n

/-- What the call number `n` of `alloc_zeroed` answers. -/
def answer (a : σ) (n : ℕ) : Option (BitVec 64) := (A.allocZeroed (A.after a n)).1

/-- The frames handed out by the first `n` calls. -/
def taken (a : σ) (n : ℕ) : Set (BitVec 64) := {f | ∃ k < n, A.answer a k = some f}

/-- The next `n` calls all hand out a frame. -/
def Supplies (a : σ) (n : ℕ) : Prop := ∀ k < n, (A.answer a k).isSome

instance (a : σ) (n : ℕ) : Decidable (A.Supplies a n) :=
  inferInstanceAs (Decidable (∀ k < n, (A.answer a k).isSome))

/-- The contract of `FrameAllocator`: frames are page-aligned, below `2 ^ 52`, not the root, and
never handed out twice. -/
structure Fresh (root : BitVec 64) (a : σ) : Prop where
  frame : ∀ n f, A.answer a n = some f → FrameAddr f ∧ f ≠ root
  distinct : ∀ i j f, A.answer a i = some f → A.answer a j = some f → i = j

variable {A} {a : σ} {root f : BitVec 64} {n : ℕ}

theorem after_add (a : σ) (k n : ℕ) : A.after (A.after a k) n = A.after a (k + n) := by
  induction k generalizing a with
  | zero => rw [Nat.zero_add]; rfl
  | succ k ih => rw [Nat.succ_add]; exact ih _

theorem after_succ (a : σ) (n : ℕ) : A.after a (n + 1) = (A.allocZeroed (A.after a n)).2 :=
  (after_add a n 1).symm

theorem allocZeroed_after (a : σ) (n : ℕ) :
    A.allocZeroed (A.after a n) = (A.answer a n, A.after a (n + 1)) := by
  rw [after_succ]
  rfl

theorem supplies_succ (a : σ) (n : ℕ) :
    A.Supplies a (n + 1) ↔ (A.allocZeroed a).1.isSome ∧ A.Supplies (A.allocZeroed a).2 n := by
  have hstep : ∀ k, A.answer a (k + 1) = A.answer (A.allocZeroed a).2 k := fun _ ↦ rfl
  constructor
  · exact fun h ↦ ⟨h 0 (Nat.succ_pos n), fun k hk ↦ hstep k ▸ h (k + 1) (Nat.succ_lt_succ hk)⟩
  · rintro ⟨h0, h⟩ k hk
    cases k with
    | zero => exact h0
    | succ k => exact hstep k ▸ h k (Nat.lt_of_succ_lt_succ hk)

theorem taken_succ (hf : A.answer a n = some f) : insert f (A.taken a n) = A.taken a (n + 1) := by
  ext g
  constructor
  · rintro (rfl | ⟨k, hk, hg⟩)
    · exact ⟨n, Nat.lt_succ_self n, hf⟩
    · exact ⟨k, Nat.lt_succ_of_lt hk, hg⟩
  · rintro ⟨k, hk, hg⟩
    rcases Nat.lt_succ_iff_lt_or_eq.mp hk with hk | rfl
    · exact .inr ⟨k, hk, hg⟩
    · exact .inl (Option.some_inj.mp (hg.symm.trans hf))

theorem taken_mono (a : σ) {k n : ℕ} (h : k ≤ n) : A.taken a k ⊆ A.taken a n :=
  fun _ ⟨i, hi, hf⟩ ↦ ⟨i, hi.trans_le h, hf⟩

theorem Fresh.not_mem_taken (h : A.Fresh root a) (hf : A.answer a n = some f) :
    f ∉ A.taken a n := by
  rintro ⟨k, hk, hg⟩
  exact hk.ne (h.distinct k n f hg hf)

end FrameAllocator

/-! ## The loops -/

/-- How many tables are missing on the way. -/
def missingTables (m : PhysMem) : List (Fin 512) → BitVec 64 → ℕ
  | [], _ => 0
  | i :: l, t =>
    if (m t).entries i &&& ptePresent = 0 then (i :: l).length
    else missingTables m l ((m t).entries i &&& pteAddrMask)

namespace Tables

variable {σ : Type*} {A : FrameAllocator σ} {a : σ} {root t : BitVec 64} {used : Set (BitVec 64)}
  {m : PhysMem} {p l : List (Fin 512)} {i : Fin 512}

theorem entry_cases (h : Tables root used m) (hp : p.length ≤ 2)
    (ht : walk (link m) root p = some t) (i : Fin 512) :
    (m t).entries i = 0 ∨ (m t).entries i &&& ptePresent ≠ 0 ∧ (m t).entries i &&& pteHuge = 0 ∧
      walk (link m) root (p ++ [i]) = some ((m t).entries i &&& pteAddrMask) := by
  rcases h.entry p t i hp ht with he | he
  · exact .inl he
  · refine .inr ⟨he.present, he.not_huge, ?_⟩
    rw [walk_concat, ht, Option.bind_some, link_of_isLink he]

theorem missingTables_of_empty (he : (m t).entries i = 0) :
    missingTables m (i :: l) t = l.length + 1 := by
  rw [missingTables, he]
  exact if_pos (zero_and_flags ptePresent)

theorem missingTables_of_zero (h : ∀ j, (m t).entries j = 0) (l : List (Fin 512)) :
    missingTables m l t = l.length := by
  cases l with
  | nil => rfl
  | cons i l => exact missingTables_of_empty (h i)

/-- **The loop of `map_page_in`.** It arrives at the page table of its path when the allocator
supplies the tables that are missing, and is out of frames otherwise; either way the tables stay a
tree and no leaf changes. -/
theorem mapLoop_spec {n : ℕ} (hA : A.Fresh root a) (h : Tables root (A.taken a n) m)
    (ht : walk (link m) root p = some t) (hlen : p.length + l.length = 3) :
    ∃ r m' n', mapLoop A l t m (A.after a n) = (r, m', A.after a n') ∧
      Tables root (A.taken a n') m' ∧
      (∀ q j, q.length = 3 → leafEntry m' root q j = leafEntry m root q j) ∧
      ((∃ pt, r = .ok pt ∧ walk (link m') root (p ++ l) = some pt ∧
          A.Supplies (A.after a n) (missingTables m l t)) ∨
        r = .error .outOfFrames ∧ ¬A.Supplies (A.after a n) (missingTables m l t)) := by
  induction l generalizing p t m n with
  | nil =>
    refine ⟨.ok t, m, n, rfl, h, fun _ _ _ ↦ rfl, .inl ⟨t, rfl, ?_, ?_⟩⟩
    · rw [List.append_nil]
      exact ht
    · exact fun k hk ↦ absurd hk (Nat.not_lt_zero k)
  | cons i l ih =>
    -- `p` is the path walked so far, `l` what is left of it
    rw [List.length_cons] at hlen
    have hp : p.length ≤ 2 := by omega
    have hlen' : (p ++ [i]).length + l.length = 3 := by
      rw [List.length_append, List.length_singleton]
      omega
    rw [mapLoop]
    rcases h.entry_cases hp ht i with he | ⟨hpresent, hhuge, hnext⟩
    · -- no table yet
      rw [missingTables_of_empty he, FrameAllocator.supplies_succ, he,
        if_pos (zero_and_flags ptePresent)]
      cases hans : A.answer a n with
      | none =>
        rw [FrameAllocator.allocZeroed_after, hans]
        exact ⟨_, m, n + 1, rfl, h.mono (FrameAllocator.taken_mono a (Nat.le_succ n)),
          fun _ _ _ ↦ rfl, .inr ⟨rfl, fun hs ↦ absurd hs.1 (by simp)⟩⟩
      | some new =>
        obtain ⟨hnew, hroot⟩ := hA.frame n new hans
        obtain ⟨htables, hwalk, hzero, hleaf⟩ :=
          h.link_new hp ht he hnew hroot (hA.not_mem_taken hans)
        rw [FrameAllocator.taken_succ hans] at htables
        rw [FrameAllocator.allocZeroed_after, hans]
        dsimp only
        rw [or_linkFlags]
        obtain ⟨r, m', n', heq, htables', hleaf', hr⟩ := ih htables hwalk hlen'
        rw [missingTables_of_zero hzero, ← List.append_cons] at hr
        refine ⟨r, m', n', heq, htables', fun q j hq ↦ (hleaf' q j hq).trans (hleaf q j hq), ?_⟩
        exact hr.imp (fun ⟨pt, hpt, hw, hs⟩ ↦ ⟨pt, hpt, hw, rfl, hs⟩)
          fun ⟨herr, hs⟩ ↦ ⟨herr, fun hs' ↦ hs hs'.2⟩
    · -- descend into the table that is there
      rw [if_neg hpresent, if_neg (not_not.mpr hhuge)]
      obtain ⟨r, m', n', heq, htables', hleaf', hr⟩ := ih h hnext hlen'
      have hmissing : missingTables m (i :: l) t
          = missingTables m l ((m t).entries i &&& pteAddrMask) := if_neg hpresent
      rw [hmissing, List.append_cons]
      exact ⟨r, m', n', heq, htables', hleaf', hr⟩

theorem translateLoop_eq (h : Tables root used m) (virt : BitVec 64) (level : ℕ)
    (ht : walk (link m) root p = some t) (hlen : p.length + l.length = 3) :
    translateLoop virt m level l t
      = (walk (link m) root (p ++ l)).elim (.error none) .ok := by
  induction l generalizing p t level with
  | nil => rw [List.append_nil, ht, translateLoop, Option.elim_some]
  | cons i l ih =>
    rw [List.length_cons] at hlen
    rw [translateLoop]
    rcases h.entry_cases (by omega) ht i with he | ⟨hpresent, hhuge, hnext⟩
    · rw [he, if_pos (zero_and_flags ptePresent), walk_append, ht, Option.bind_some, walk_cons,
        link_eq_none he]
      rfl
    · rw [if_neg hpresent, if_neg (not_not.mpr hhuge), List.append_cons]
      exact ih (level + 1) hnext (by rw [List.length_append, List.length_singleton]; omega)

theorem unmapLoop_eq (h : Tables root used m) (ht : walk (link m) root p = some t)
    (hlen : p.length + l.length = 3) : unmapLoop m l t = walk (link m) root (p ++ l) := by
  induction l generalizing p t with
  | nil => rw [List.append_nil, ht, unmapLoop]
  | cons i l ih =>
    rw [List.length_cons] at hlen
    rw [unmapLoop]
    rcases h.entry_cases (by omega) ht i with he | ⟨hpresent, hhuge, hnext⟩
    · rw [he, if_pos (.inl (zero_and_flags ptePresent)), walk_append, ht, Option.bind_some,
        walk_cons, link_eq_none he]
      rfl
    · rw [if_neg (not_or.mpr ⟨hpresent, not_not.mpr hhuge⟩), List.append_cons]
      exact ih hnext (by rw [List.length_append, List.length_singleton]; omega)

end Tables

end Zeroxos
