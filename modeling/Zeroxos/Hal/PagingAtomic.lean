import Zeroxos.Hal.PagingTree

/-!
# What a failed `map_page_in` leaves behind

The tables here may hold anything, huge pages included; all that is asked is that the links a walk
follows form a tree and that the allocator hands out frames that are not part of it.

## The three errors

Two of them come before anything was done: behind a table that was made on the way there are only
empty tables, so a huge page or a mapping in the way was there before and no table was missing. A
walk that runs out of frames stops with the tables made so far linked into the tree.

## What stays

These tables are empty and in nobody's way: what was there stays, no translation changes, and the
next attempt finds them (`mapPageIn_failed`). They are not returned to the allocator.
-/

namespace Zeroxos

/-- The table an entry links to, for a walk that stops at a huge page. -/
def tableLink (m : PhysMem) (table : BitVec 64) (i : Fin 512) : Option (BitVec 64) :=
  if (m table).entries i &&& ptePresent = 0 ∨ (m table).entries i &&& pteHuge ≠ 0 then none
  else some ((m table).entries i &&& pteAddrMask)

namespace FrameAllocator

variable {σ : Type*}

/-- `out` counts the frames outstanding. -/
structure Counts (A : FrameAllocator σ) (out : σ → ℕ) : Prop where
  allocZeroed : ∀ a, out (A.allocZeroed a).2 = out a + if (A.allocZeroed a).1.isSome then 1 else 0
  free : ∀ f a, out (A.free f a) = out a - 1

/-- The frames to come, from call `n` on, are frame addresses, distinct, and not in the tree. -/
structure FreshFor (A : FrameAllocator σ) (root : BitVec 64) (m : PhysMem) (a : σ) (n : ℕ) :
    Prop where
  frame : ∀ j f, n ≤ j → A.answer a j = some f → FrameAddr f
  out_of_tree : ∀ j f, n ≤ j → A.answer a j = some f →
    ∀ q : List (Fin 512), q.length ≤ 3 → walk (tableLink m) root q ≠ some f
  distinct : ∀ i j f, A.answer a i = some f → A.answer a j = some f → i = j

theorem Counts.out_after {A : FrameAllocator σ} {out : σ → ℕ} (h : A.Counts out) {a : σ} {k : ℕ}
    (hk : A.Supplies a k) : out (A.after a k) = out a + k := by
  induction k with
  | zero => rfl
  | succ k ih =>
    have hlast : (A.allocZeroed (A.after a k)).1.isSome := hk k (Nat.lt_succ_self k)
    rw [after_succ, h.allocZeroed, if_pos hlast, ih fun j hj ↦ hk j (Nat.lt_succ_of_lt hj)]
    rfl

end FrameAllocator

/-- The tree has grown by empty tables, in `frames`, and is otherwise as it was. -/
structure Grows (root : BitVec 64) (frames : Set (BitVec 64)) (m m' : PhysMem) : Prop where
  /-- Every table is where it was. -/
  stays : ∀ (q : List (Fin 512)) t, q.length ≤ 3 → walk (tableLink m) root q = some t →
    walk (tableLink m') root q = some t
  /-- Its entries are what they were, but for absent ones above the page tables that now link one of
  the frames. -/
  entry : ∀ (q : List (Fin 512)) t i, q.length ≤ 3 → walk (tableLink m) root q = some t →
    (m' t).entries i = (m t).entries i ∨ (q.length ≤ 2 ∧ (m t).entries i &&& ptePresent = 0 ∧
      ∃ f ∈ frames, FrameAddr f ∧ (m' t).entries i = f ||| linkFlags)
  /-- Every frame is a table of the tree. -/
  linked : ∀ f ∈ frames, ∃ q : List (Fin 512), q.length ≤ 3 ∧
    walk (tableLink m') root q = some f
  /-- And is empty, but for links to other frames. -/
  empty : ∀ f ∈ frames, ∀ i, (m' f).entries i = 0 ∨
    ∃ g ∈ frames, FrameAddr g ∧ (m' f).entries i = g ||| linkFlags
  /-- No translation has changed. -/
  translate : ∀ virt, translateIn root virt m' = translateIn root virt m

namespace Grows

variable {root : BitVec 64} {F G : Set (BitVec 64)} {m m' m'' : PhysMem}

theorem refl (root : BitVec 64) (m : PhysMem) : Grows root ∅ m m where
  stays _ _ _ h := h
  entry _ _ _ _ _ := .inl rfl
  linked _ h := absurd h (Set.notMem_empty _)
  empty _ h := absurd h (Set.notMem_empty _)
  translate _ := rfl

theorem trans (h : Grows root F m m') (h' : Grows root G m' m'') : Grows root (F ∪ G) m m'' where
  stays q t hq ht := h'.stays q t hq (h.stays q t hq ht)
  entry q t i hq ht := by
    rcases h'.entry q t i hq (h.stays q t hq ht) with hsame' | ⟨hlen, habsent, f, hf, hfa, hlink⟩
    · rcases h.entry q t i hq ht with hsame | ⟨hlen, habsent, f, hf, hfa, hlink⟩
      · exact .inl (hsame'.trans hsame)
      · exact .inr ⟨hlen, habsent, f, .inl hf, hfa, hsame'.trans hlink⟩
    · rcases h.entry q t i hq ht with hsame | ⟨-, -, g, -, hga, hlink'⟩
      · exact .inr ⟨hlen, hsame ▸ habsent, f, .inr hf, hfa, hlink⟩
      · -- an entry that links a frame is present
        exact absurd habsent (IsLink.present ⟨g, hga, hlink'⟩)
  linked f hf := by
    rcases hf with hf | hf
    · obtain ⟨q, hq, hw⟩ := h.linked f hf
      exact ⟨q, hq, h'.stays q f hq hw⟩
    · exact h'.linked f hf
  empty f hf i := by
    rcases hf with hf | hf
    · obtain ⟨q, hq, hw⟩ := h.linked f hf
      rcases h'.entry q f i hq hw with hsame | ⟨-, -, g, hg, hga, hlink⟩
      · rw [hsame]
        exact (h.empty f hf i).imp_right fun ⟨g, hg, hlink⟩ ↦ ⟨g, .inl hg, hlink⟩
      · exact .inr ⟨g, .inr hg, hga, hlink⟩
    · exact (h'.empty f hf i).imp_right fun ⟨g, hg, hlink⟩ ↦ ⟨g, .inr hg, hlink⟩
  translate virt := (h'.translate virt).trans (h.translate virt)

theorem pageTable_eq (h : Grows root F m m') {q : List (Fin 512)} {t : BitVec 64}
    (hq : q.length = 3) (ht : walk (tableLink m) root q = some t) : m' t = m t := by
  have hentries : (m' t).entries = (m t).entries := by
    funext i
    rcases h.entry q t i hq.le ht with hsame | ⟨hlen, -⟩
    · exact hsame
    · omega
  exact congrArg PageTable.mk hentries

end Grows

namespace MapAtomic

variable {root t new virt b pt : BitVec 64} {m m' : PhysMem} {p q l : List (Fin 512)}
  {i j : Fin 512} {level : ℕ}

/-! ## One table -/

theorem tableLink_of_absent (h : (m t).entries i &&& ptePresent = 0) : tableLink m t i = none :=
  if_pos (.inl h)

theorem tableLink_of_zero (h : (m t).entries i = 0) : tableLink m t i = none :=
  tableLink_of_absent (by rw [h]; exact zero_and_flags ptePresent)

theorem tableLink_of_present (hpresent : (m t).entries i &&& ptePresent ≠ 0)
    (hhuge : (m t).entries i &&& pteHuge = 0) :
    tableLink m t i = some ((m t).entries i &&& pteAddrMask) :=
  if_neg (not_or.mpr ⟨hpresent, not_not.mpr hhuge⟩)

theorem walk_of_translateLoop (h : translateLoop virt m level l b = .ok pt) :
    walk (tableLink m) b l = some pt := by
  induction l generalizing b level with
  | nil =>
    rw [translateLoop] at h
    exact congrArg some (Except.ok.inj h)
  | cons i l ih =>
    rw [translateLoop] at h
    dsimp only at h
    split_ifs at h with hpresent hhuge
    rw [walk_cons, tableLink_of_present hpresent (not_not.mp hhuge)]
    exact ih h

section Link

variable (htree : IsTree (tableLink m) root 3) (hp : p.length ≤ 2)
  (ht : walk (tableLink m) root p = some t) (habsent : (m t).entries i &&& ptePresent = 0)
  (hnew : FrameAddr new)
  (hfresh : ∀ q : List (Fin 512), q.length ≤ 3 → walk (tableLink m) root q ≠ some new)

include hp ht hfresh

theorem withTable_ne : t ≠ new := fun h ↦ hfresh p (by omega) (h ▸ ht)

theorem withTable_new (j : Fin 512) : (m.withTable t i new new).entries j = 0 :=
  PhysMem.entries_withTable_new (withTable_ne hp ht hfresh)

theorem withTable_self :
    (m.withTable t i new t).entries = Function.update (m t).entries i (new ||| linkFlags) :=
  PhysMem.entries_withTable_self (withTable_ne hp ht hfresh)

theorem withTable_entry (hq : q.length ≤ 3) (hb : walk (tableLink m) root q = some b)
    (hne : ¬(b = t ∧ j = i)) : (m.withTable t i new b).entries j = (m b).entries j := by
  by_cases hbt : b = t
  · subst hbt
    rw [withTable_self hp ht hfresh, Function.update_of_ne fun hj ↦ hne ⟨rfl, hj⟩]
  · have hbn : b ≠ new := by
      rintro rfl
      exact hfresh q hq hb
    rw [PhysMem.withTable_of_ne hbt hbn]

include habsent hnew

/-- A walk of `translate_in` in the larger tree goes as before, or ends at the new table where it
ended for want of one. -/
theorem translateLoop_withTable (virt : BitVec 64) (level : ℕ) (hlen : q.length + l.length = 3)
    (hb : walk (tableLink m) root q = some b) :
    translateLoop virt (m.withTable t i new) level l b = translateLoop virt m level l b ∨
      translateLoop virt m level l b = .error none ∧
        (translateLoop virt (m.withTable t i new) level l b = .error none ∨
          translateLoop virt (m.withTable t i new) level l b = .ok new) := by
  induction l generalizing q b level with
  | nil => exact .inl rfl
  | cons j l ih =>
    rw [List.length_cons] at hlen
    by_cases hhere : b = t ∧ j = i
    · -- the entry that links the new table
      obtain ⟨rfl, rfl⟩ := hhere
      have hentry : (m.withTable b j new b).entries j = new ||| linkFlags := by
        rw [withTable_self hp ht hfresh, Function.update_self]
      have his : IsLink ((m.withTable b j new b).entries j) := ⟨new, hnew, hentry⟩
      refine .inr ⟨by rw [translateLoop, if_pos habsent], ?_⟩
      have hstep : translateLoop virt (m.withTable b j new) level (j :: l) b =
          translateLoop virt (m.withTable b j new) (level + 1) l new := by
        rw [translateLoop, if_neg his.present, if_neg (not_not.mpr his.not_huge), hentry,
          hnew.or_and_mask linkFlags_spec.1]
      rw [hstep]
      rcases l with _ | ⟨k, l⟩
      · exact .inr rfl
      · rw [translateLoop, withTable_new hp ht hfresh k, if_pos (zero_and_flags ptePresent)]
        exact .inl rfl
    · have hentry := withTable_entry (i := i) hp ht hfresh (by omega) hb hhere
      by_cases hpresent : (m b).entries j &&& ptePresent = 0
      · left
        rw [translateLoop, translateLoop, hentry, if_pos hpresent, if_pos hpresent]
      · by_cases hhuge : (m b).entries j &&& pteHuge = 0
        · have hnext : walk (tableLink m) root (q ++ [j]) =
              some ((m b).entries j &&& pteAddrMask) := by
            rw [walk_concat, hb, Option.bind_some, tableLink_of_present hpresent hhuge]
          have hlen' : (q ++ [j]).length + l.length = 3 := by
            rw [List.length_append, List.length_singleton]
            omega
          have hrest := ih (level + 1) hlen' hnext
          rw [translateLoop, translateLoop, hentry, if_neg hpresent, if_neg hpresent,
            if_neg (not_not.mpr hhuge), if_neg (not_not.mpr hhuge)]
          exact hrest
        · left
          rw [translateLoop, translateLoop, hentry, if_neg hpresent, if_neg hpresent, if_pos hhuge,
            if_pos hhuge]
include htree

theorem withTable_tree : IsTree (tableLink (m.withTable t i new)) root 3 ∧
    ∀ q : List (Fin 512), q.length ≤ 3 → walk (tableLink (m.withTable t i new)) root q =
      if q = p ++ [i] then some new else walk (tableLink m) root q := by
  have hentry : (m.withTable t i new t).entries i = new ||| linkFlags := by
    rw [withTable_self hp ht hfresh, Function.update_self]
  have hlink : tableLink (m.withTable t i new) t i = some new := by
    have his : IsLink ((m.withTable t i new t).entries i) := ⟨new, hnew, hentry⟩
    rw [tableLink_of_present his.present his.not_huge, hentry, hnew.or_and_mask linkFlags_spec.1]
  have hself : ∀ j, tableLink (m.withTable t i new) new j = none := fun j ↦
    tableLink_of_zero (withTable_new hp ht hfresh j)
  have hother : ∀ j, j ≠ i → tableLink (m.withTable t i new) t j = tableLink m t j := fun j hj ↦ by
    rw [tableLink, tableLink, withTable_self hp ht hfresh, Function.update_of_ne hj]
  have heq : ∀ b, b ≠ t → b ≠ new → tableLink (m.withTable t i new) b = tableLink m b :=
    fun b hbt hbn ↦ by
      funext j
      rw [tableLink, tableLink, PhysMem.withTable_of_ne hbt hbn]
  have hlt : p.length < 3 := by omega
  exact ⟨htree.link hlt ht (tableLink_of_absent habsent) hfresh hself hlink hother heq,
    fun q hq ↦
      htree.walk_link hlt ht (tableLink_of_absent habsent) hfresh hself hlink hother heq hq⟩

theorem translateIn_withTable (virt : BitVec 64) :
    translateIn root virt (m.withTable t i new) = translateIn root virt m := by
  have hloop := translateLoop_withTable hp ht habsent hnew hfresh (q := [])
    (l := [virtToIndices virt 0, virtToIndices virt 1, virtToIndices virt 2]) virt 0 rfl rfl
  rw [translateIn, translateIn]
  dsimp only
  rcases hloop with hsame | ⟨hnone, hnone' | hnew'⟩
  · rw [hsame]
    rcases hend : translateLoop virt m 0
        [virtToIndices virt 0, virtToIndices virt 1, virtToIndices virt 2] root with r | pt
    · rfl
    · -- a page table of the tree is not the table that has changed, which lies above it
      have hpt := walk_of_translateLoop hend
      have hne : ¬(pt = t ∧ virtToIndices virt 3 = i) := fun h ↦ by
        obtain rfl := h.1
        have hpath := congrArg List.length (htree (le_refl 3) (by omega) hpt ht)
        simp only [List.length_cons, List.length_nil] at hpath
        omega
      dsimp only
      rw [withTable_entry hp ht hfresh (le_refl 3) hpt hne]
  · rw [hnone, hnone']
  · rw [hnone, hnew']
    dsimp only
    rw [withTable_new hp ht hfresh, if_pos (zero_and_flags ptePresent)]

theorem withTable_grows : Grows root {new} m (m.withTable t i new) := by
  obtain ⟨-, hwalk⟩ := withTable_tree htree hp ht habsent hnew hfresh
  refine ⟨fun q b hq hb ↦ ?_, fun q b j hq hb ↦ ?_, fun f hf ↦ ?_, fun f hf j ↦ ?_,
    translateIn_withTable htree hp ht habsent hnew hfresh⟩
  · rw [hwalk q hq, if_neg, hb]
    rintro rfl
    rw [walk_concat, ht, Option.bind_some, tableLink_of_absent habsent] at hb
    cases hb
  · by_cases hhere : b = t ∧ j = i
    · obtain ⟨rfl, rfl⟩ := hhere
      refine .inr ⟨?_, habsent, new, rfl, hnew, ?_⟩
      · rw [htree hq (by omega) hb ht]
        exact hp
      · rw [withTable_self hp ht hfresh, Function.update_self]
    · exact .inl (withTable_entry hp ht hfresh hq hb hhere)
  · obtain rfl : f = new := hf
    have hlen : (p ++ [i]).length ≤ 3 := by
      rw [List.length_append, List.length_singleton]
      omega
    exact ⟨p ++ [i], hlen, by rw [hwalk _ hlen, if_pos rfl]⟩
  · obtain rfl : f = new := hf
    exact .inl (withTable_new hp ht hfresh j)

end Link

/-! ## The loop -/

variable {σ : Type*} {A : FrameAllocator σ} {a : σ} {n : ℕ}

/-- How the loop of `map_page_in` can end: at the page table it was looking for, with nothing done,
or at an empty one; at a huge page, with nothing done; or out of frames at call `k`. -/
inductive LoopEnds (A : FrameAllocator σ) (root t : BitVec 64) (l : List (Fin 512)) (m : PhysMem)
    (a : σ) (n : ℕ) : Except MapError (BitVec 64) × PhysMem × σ → Prop
  | found (pt : BitVec 64) : walk (tableLink m) t l = some pt →
      LoopEnds A root t l m a n (.ok pt, m, A.after a n)
  | made (pt : BitVec 64) (m' : PhysMem) (a' : σ) : (∀ j, (m' pt).entries j = 0) →
      LoopEnds A root t l m a n (.ok pt, m', a')
  | huge : (∃ j, (m t).entries j &&& ptePresent ≠ 0) →
      LoopEnds A root t l m a n (.error .hugePagePresent, m, A.after a n)
  | out (k : ℕ) (m' : PhysMem) : k < l.length → A.Supplies (A.after a n) k →
      A.answer a (n + k) = none → (k = 0 → m' = m) → Grows root (A.taken (A.after a n) k) m m' →
      LoopEnds A root t l m a n (.error .outOfFrames, m', A.after a (n + k + 1))

theorem taken_zero : A.taken a 0 = ∅ :=
  Set.eq_empty_iff_forall_notMem.mpr fun _ ⟨j, hj, _⟩ ↦ Nat.not_lt_zero j hj

theorem taken_cons {f : BitVec 64} {k : ℕ} (hf : A.answer a n = some f) :
    A.taken (A.after a n) (k + 1) = {f} ∪ A.taken (A.after a (n + 1)) k := by
  have hanswer : ∀ x j, A.answer (A.after a x) j = A.answer a (x + j) := fun x j ↦ by
    rw [FrameAllocator.answer, FrameAllocator.answer, FrameAllocator.after_add]
  ext g
  constructor
  · rintro ⟨j, hj, hg⟩
    rcases j with _ | j
    · rw [hanswer, Nat.add_zero] at hg
      exact .inl (Option.some_inj.mp (hg.symm.trans hf))
    · refine .inr ⟨j, Nat.lt_of_succ_lt_succ hj, ?_⟩
      rw [hanswer] at hg ⊢
      rwa [show n + 1 + j = n + (j + 1) by omega]
  · rintro (hg | ⟨j, hj, hg⟩)
    · obtain rfl : g = f := hg
      exact ⟨0, Nat.succ_pos k, (hanswer n 0).trans hf⟩
    · refine ⟨j + 1, Nat.succ_lt_succ hj, ?_⟩
      rw [hanswer] at hg ⊢
      rwa [show n + (j + 1) = n + 1 + j by omega]

theorem freshFor_withTable (htree : IsTree (tableLink m) root 3) (hfresh : A.FreshFor root m a n)
    (hp : p.length ≤ 2) (ht : walk (tableLink m) root p = some t)
    (habsent : (m t).entries i &&& ptePresent = 0) (hans : A.answer a n = some new) :
    A.FreshFor root (m.withTable t i new) a (n + 1) := by
  obtain ⟨-, hwalk⟩ := withTable_tree htree hp ht habsent (hfresh.frame n new le_rfl hans)
    (hfresh.out_of_tree n new le_rfl hans)
  refine ⟨fun j f hj ↦ hfresh.frame j f (by omega), fun j f hj hf q hq hw ↦ ?_, hfresh.distinct⟩
  rw [hwalk q hq] at hw
  split_ifs at hw
  · have hjn := hfresh.distinct j n f hf (hans.trans hw)
    omega
  · exact hfresh.out_of_tree j f (by omega) hf q hq hw

variable {r : Except MapError (BitVec 64) × PhysMem × σ}

theorem LoopEnds.through (hpresent : (m t).entries i &&& ptePresent ≠ 0)
    (hhuge : (m t).entries i &&& pteHuge = 0)
    (hends : LoopEnds A root ((m t).entries i &&& pteAddrMask) l m a n r) :
    LoopEnds A root t (i :: l) m a n r := by
  obtain ⟨pt, hpt⟩ | ⟨pt, m', a', hempty⟩ | - | ⟨k, m', hk, hsup, hnone, hsame, hmore⟩ := hends
  · refine .found pt ?_
    rw [walk_cons, tableLink_of_present hpresent hhuge]
    exact hpt
  · exact .made pt m' a' hempty
  · exact .huge ⟨i, hpresent⟩
  · exact .out k m' (hk.trans (Nat.lt_succ_self _)) hsup hnone hsame hmore

theorem LoopEnds.behind (hzero : ∀ j, (m new).entries j = 0) {m₀ : PhysMem}
    (hgrows : Grows root {new} m₀ m) (hans : A.answer a n = some new)
    (hends : LoopEnds A root new l m a (n + 1) r) : LoopEnds A root t (i :: l) m₀ a n r := by
  obtain ⟨pt, hpt⟩ | ⟨pt, m', a', hempty⟩ | ⟨j, hj⟩ | ⟨k, m', hk, hsup, hnone, -, hmore⟩ := hends
  · refine .made pt _ _ ?_
    rcases l with _ | ⟨j, l⟩
    · obtain rfl := Option.some_inj.mp hpt
      exact hzero
    · rw [walk_cons, tableLink_of_zero (hzero j)] at hpt
      cases hpt
  · exact .made pt m' a' hempty
  · exact absurd (by rw [hzero j]; exact zero_and_flags ptePresent) hj
  · have hshift : n + 1 + k = n + (k + 1) := by omega
    rw [hshift] at hnone ⊢
    refine .out (k + 1) m' (Nat.succ_lt_succ hk) ?_ hnone (fun h ↦ absurd h (Nat.succ_ne_zero k)) ?_
    · rw [FrameAllocator.supplies_succ, FrameAllocator.allocZeroed_after]
      exact ⟨by rw [hans]; rfl, hsup⟩
    · rw [taken_cons hans]
      exact hgrows.trans hmore

/-- **How the loop ends**, from the table at the end of the path `p`. -/
theorem mapLoop_ends (htree : IsTree (tableLink m) root 3) (hfresh : A.FreshFor root m a n)
    (ht : walk (tableLink m) root p = some t) (hlen : p.length + l.length = 3) :
    LoopEnds A root t l m a n (mapLoop A l t m (A.after a n)) := by
  induction l generalizing p t m n with
  | nil => exact .found t rfl
  | cons i l ih =>
    -- `p` is the path walked so far, `l` what is left of it
    rw [List.length_cons] at hlen
    have hp : p.length ≤ 2 := by omega
    have hlen' : (p ++ [i]).length + l.length = 3 := by
      rw [List.length_append, List.length_singleton]
      omega
    rw [mapLoop]
    by_cases hpresent : (m t).entries i &&& ptePresent = 0
    · rw [if_pos hpresent, FrameAllocator.allocZeroed_after]
      rcases hans : A.answer a n with _ | new
      · exact .out 0 m (Nat.succ_pos _) (fun k hk ↦ absurd hk (Nat.not_lt_zero k)) hans
          (fun _ ↦ rfl) (by rw [taken_zero]; exact Grows.refl root m)
      · have hnew := hfresh.frame n new le_rfl hans
        have hout := hfresh.out_of_tree n new le_rfl hans
        obtain ⟨htree', hwalk⟩ := withTable_tree htree hp ht hpresent hnew hout
        have hnext : walk (tableLink (m.withTable t i new)) root (p ++ [i]) = some new := by
          rw [hwalk _ (by omega), if_pos rfl]
        have hends := ih htree' (freshFor_withTable htree hfresh hp ht hpresent hans) hnext hlen'
        dsimp only
        rw [or_linkFlags]
        exact hends.behind (withTable_new hp ht hout)
          (withTable_grows htree hp ht hpresent hnew hout) hans
    · rw [if_neg hpresent]
      by_cases hhuge : (m t).entries i &&& pteHuge = 0
      · have hnext : walk (tableLink m) root (p ++ [i]) =
            some ((m t).entries i &&& pteAddrMask) := by
          rw [walk_concat, ht, Option.bind_some, tableLink_of_present hpresent hhuge]
        rw [if_neg (not_not.mpr hhuge)]
        exact (ih htree hfresh hnext hlen').through hpresent hhuge
      · rw [if_pos hhuge]
        exact .huge ⟨i, hpresent⟩

end MapAtomic

section Failed

open MapAtomic

variable {σ : Type*} {A : FrameAllocator σ} {out : σ → ℕ} {root virt phys : BitVec 64}
  {flags : PageFlags} {m m' : PhysMem} {a a' : σ} {e : MapError}

/-- **A failed `map_page_in`.** Unless it ran out of frames, it has done nothing. If it has, the
frames it took, two at most, are all linked into the tree as empty tables, and nothing else has
changed. -/
theorem mapPageIn_failed (hcounts : A.Counts out) (htree : IsTree (tableLink m) root 3)
    (hfresh : A.FreshFor root m a 0)
    (hfails : mapPageIn A root virt phys flags m a = (.error e, m', a')) :
    (e ≠ .outOfFrames → m' = m ∧ a' = a) ∧
      (e = .outOfFrames → ∃ k ≤ 2, A.Supplies a k ∧ A.answer a k = none ∧ out a' = out a + k ∧
        (k = 0 → m' = m) ∧ Grows root (A.taken a k) m m') := by
  have hends := mapLoop_ends (p := []) (t := root)
    (l := [virtToIndices virt 0, virtToIndices virt 1, virtToIndices virt 2]) htree hfresh rfl rfl
  rw [FrameAllocator.after] at hends
  rw [mapPageIn] at hfails
  generalize mapLoop A [virtToIndices virt 0, virtToIndices virt 1, virtToIndices virt 2] root m a
    = r at hends hfails
  rcases hends with ⟨pt, -⟩ | ⟨pt, m₁, a₁, hempty⟩ | - | ⟨k, m₁, hk, hsup, hnone, hsame, hgrows⟩
  · dsimp only at hfails
    split_ifs at hfails
    · cases hfails
      exact ⟨fun _ ↦ ⟨rfl, rfl⟩, fun h ↦ absurd h (by decide)⟩
    · cases hfails
  · -- a page table that was made on the way maps nothing
    dsimp only at hfails
    rw [if_neg (not_not.mpr (by rw [hempty]; exact zero_and_flags ptePresent))] at hfails
    cases hfails
  · cases hfails
    exact ⟨fun _ ↦ ⟨rfl, rfl⟩, fun h ↦ absurd h (by decide)⟩
  · cases hfails
    have hlast : A.answer a k = none := by rwa [Nat.zero_add] at hnone
    have hsupplies : A.Supplies a k := hsup
    refine ⟨fun h ↦ absurd rfl h,
      fun _ ↦ ⟨k, Nat.le_of_lt_succ hk, hsupplies, hlast, ?_, hsame, hgrows⟩⟩
    have hanswer : ¬(A.allocZeroed (A.after a k)).1.isSome := by
      rw [show (A.allocZeroed (A.after a k)).1 = none from hlast]
      exact Bool.false_ne_true
    rw [Nat.zero_add, FrameAllocator.after_succ, hcounts.allocZeroed, if_neg hanswer,
      hcounts.out_after hsupplies]
    rfl

/-! ## One frame left -/

/-- An allocator with one frame, the state being how many it has handed out. -/
def oneFrame : FrameAllocator ℕ where
  allocZeroed n := if n = 0 then (some 0x1000, 1) else (none, n)
  free _ n := n - 1

theorem oneFrame_counts : oneFrame.Counts id where
  allocZeroed n := by
    rw [oneFrame]
    by_cases hn : n = 0
    · simp [hn]
    · simp [hn]
  free _ _ := rfl

theorem oneFrame_answer {n : ℕ} {f : BitVec 64} (h : oneFrame.answer 0 n = some f) :
    n = 0 ∧ f = 0x1000 := by
  have hafter : ∀ n, oneFrame.after 0 (n + 1) = 1 := fun n ↦ by
    induction n with
    | zero => rfl
    | succ n ih =>
      rw [FrameAllocator.after_succ, ih]
      rfl
  rcases n with _ | n
  · exact ⟨rfl, (Option.some_inj.mp h).symm⟩
  · rw [FrameAllocator.answer, hafter] at h
    cases h

/-- A memory of empty tables. -/
def emptyTables : PhysMem := fun _ ↦ PageTable.empty

theorem walk_emptyTables {root b : BitVec 64} {q : List (Fin 512)}
    (h : walk (tableLink emptyTables) root q = some b) : q = [] ∧ b = root := by
  rcases q with _ | ⟨i, q⟩
  · exact ⟨rfl, (Option.some_inj.mp h).symm⟩
  · rw [walk_cons, tableLink_of_zero (m := emptyTables) (i := i) rfl] at h
    cases h

theorem emptyTables_tree (root : BitVec 64) : IsTree (tableLink emptyTables) root 3 :=
  fun _ _ _ _ _ hp hq ↦ (walk_emptyTables hp).1.trans (walk_emptyTables hq).1.symm

theorem oneFrame_fresh : oneFrame.FreshFor 0 emptyTables 0 0 where
  frame _ f _ hf := by
    rw [(oneFrame_answer hf).2]
    unfold FrameAddr
    decide
  out_of_tree _ f _ hf q _ hw := by
    rw [(oneFrame_answer hf).2] at hw
    exact absurd (walk_emptyTables hw).2 (by decide)
  distinct _ _ _ hi hj := (oneFrame_answer hi).1.trans (oneFrame_answer hj).1.symm

/-- The memory when the frames run out at the second table. -/
def oneTableMade : PhysMem :=
  (emptyTables.zero 0x1000).setEntry 0 0 (0x1000 ||| ptePresent ||| pteWritable ||| pteUser)

theorem mapPageIn_oneFrame : mapPageIn oneFrame 0 0 0x2000 PageFlags.read emptyTables 0 =
    (.error .outOfFrames, oneTableMade, 1) := rfl

theorem mapPageIn_failed_oneFrame : ∃ k ≤ 2, oneFrame.Supplies 0 k ∧ oneFrame.answer 0 k = none ∧
    id 1 = id 0 + k ∧ (k = 0 → oneTableMade = emptyTables) ∧
      Grows 0 (oneFrame.taken 0 k) emptyTables oneTableMade :=
  (mapPageIn_failed oneFrame_counts (emptyTables_tree 0) oneFrame_fresh mapPageIn_oneFrame).2 rfl

/-- **Not atomic.** The call fails with a table linked at the root and its frame outstanding. -/
theorem mapPageIn_leaves_table :
    oneFrame.Counts id ∧ IsTree (tableLink emptyTables) 0 3 ∧
      oneFrame.FreshFor 0 emptyTables 0 0 ∧
      mapPageIn oneFrame 0 0 0x2000 PageFlags.read emptyTables 0 =
        (.error .outOfFrames, oneTableMade, 1) ∧
      (oneTableMade 0).entries 0 ≠ (emptyTables 0).entries 0 ∧ id 1 ≠ id 0 :=
  ⟨oneFrame_counts, emptyTables_tree 0, oneFrame_fresh, mapPageIn_oneFrame, by decide, by decide⟩

end Failed

end Zeroxos
