import Zeroxos.Hal.PagingPerms

/-!
# The walker in shared memory

The frames of the page tables come from an allocator that serves others as well, so between two
calls of the walker its state is anybody's.

## What the walker needs

That is said by an invariant `I a used` of the allocator state and the frames taken for tables so
far (`FrameAllocator.Guards`): a frame it is given is a frame, is not the root and has not been
taken before. Frames that others have may be counted as taken all along (`Guards.beside`), which is
how several trees of tables live in one memory.

## What it gives in return

The walker touches nothing else: a table outside the root and the frames taken is as it was after
every call, and the other way round, what others write there changes no walk (`Tables.congr`).
-/

namespace Zeroxos

variable {σ : Type*} {A : FrameAllocator σ} {a : σ} {root virt v t e : BitVec 64}
  {m m' : PhysMem} {used : Set (BitVec 64)} {p q l : List (Fin 512)}
  {I : σ → Set (BitVec 64) → Prop}

/-- The allocator keeps `I` and hands out frames that are new. -/
structure FrameAllocator.Guards (A : FrameAllocator σ) (root : BitVec 64)
    (I : σ → Set (BitVec 64) → Prop) : Prop where
  none : ∀ {a a' used}, I a used → A.allocZeroed a = (none, a') → I a' used
  some : ∀ {a a' used f}, I a used → A.allocZeroed a = (some f, a') →
    FrameAddr f ∧ f ≠ root ∧ f ∉ used ∧ I a' (insert f used)

/-- **Frames that others have** may be counted as taken all along. -/
theorem FrameAllocator.Guards.beside (hA : A.Guards root I) (others : Set (BitVec 64)) :
    A.Guards root fun a used ↦ I a (used ∪ others) ∧ ∀ f ∈ used, f ∉ others where
  none hI hans := ⟨hA.none hI.1 hans, hI.2⟩
  some hI hans := by
    obtain ⟨hframe, hroot, hnew, hI'⟩ := hA.some hI.1 hans
    rw [Set.mem_union, not_or] at hnew
    rw [← Set.insert_union] at hI'
    exact ⟨hframe, hroot, hnew.1, hI', Set.forall_mem_insert.mpr ⟨hnew.2, hI.2⟩⟩

namespace Tables

/-! ## Writes from outside -/

theorem walk_congr (h : Tables root used m) (heq : ∀ x, x = root ∨ x ∈ used → m' x = m x)
    (hq : q.length ≤ 3) : walk (link m') root q = walk (link m) root q := by
  induction q using List.reverseRecOn with
  | nil => rfl
  | append_singleton q j ih =>
    rw [List.length_append, List.length_singleton] at hq
    rw [walk_concat, walk_concat, ih (by omega)]
    cases hb : walk (link m) root q with
    | none => rfl
    | some b =>
      rw [Option.bind_some, Option.bind_some, link, link, heq b (h.mem_used q b (by omega) hb)]

/-- **What is not a table may change.** -/
theorem congr (h : Tables root used m) (heq : ∀ x, x = root ∨ x ∈ used → m' x = m x) :
    Tables root used m' ∧ ∀ q j, q.length = 3 →
      leafEntry m' root q j = leafEntry m root q j := by
  have hwalk : ∀ q, q.length ≤ 3 → walk (link m') root q = walk (link m) root q :=
    fun q hq ↦ h.walk_congr heq hq
  have htable : ∀ q b, q.length ≤ 3 → walk (link m) root q = some b → m' b = m b :=
    fun q b hq hb ↦ heq b (h.mem_used q b hq hb)
  refine ⟨⟨fun q₁ q₂ b h₁ h₂ hb₁ hb₂ ↦ ?_, fun q b j hq hb ↦ ?_, fun q b j hq hb ↦ ?_,
    fun q b hq hb ↦ ?_⟩, fun q j hq ↦ ?_⟩
  · rw [hwalk _ h₁] at hb₁
    rw [hwalk _ h₂] at hb₂
    exact h.tree h₁ h₂ hb₁ hb₂
  · rw [hwalk q (by omega)] at hb
    rw [htable q b (by omega) hb]
    exact h.entry q b j hq hb
  · rw [hwalk q hq.le] at hb
    rw [htable q b hq.le hb]
    exact h.leaf q b j hq hb
  · rw [hwalk q hq] at hb
    exact h.mem_used q b hq hb
  · rw [leafEntry, leafEntry, hwalk q hq.le]
    cases hb : walk (link m) root q with
    | none => rfl
    | some b =>
      dsimp only
      rw [htable q b hq.le hb]

/-! ## The walker's own writes -/

/-- **The loop of `map_page_in`**, between the calls of others. -/
theorem mapLoop_shared (hA : A.Guards root I) (hI : I a used) (h : Tables root used m)
    (ht : walk (link m) root p = some t) (hlen : p.length + l.length = 3) :
    ∃ r m' a' used', mapLoop A l t m a = (r, m', a') ∧ I a' used' ∧ Tables root used' m' ∧
      (∀ q j, q.length = 3 → leafEntry m' root q j = leafEntry m root q j) ∧
      (∀ x, x ≠ root → x ∉ used' → m' x = m x) ∧ used ⊆ used' ∧
      ∀ pt, r = .ok pt → walk (link m') root (p ++ l) = some pt := by
  induction l generalizing p t m a used with
  | nil =>
    refine ⟨.ok t, m, a, used, rfl, hI, h, fun _ _ _ ↦ rfl, fun _ _ _ ↦ rfl, subset_rfl, ?_⟩
    rintro pt hpt
    rw [List.append_nil, ← Except.ok.inj hpt]
    exact ht
  | cons i l ih =>
    rw [List.length_cons] at hlen
    have hp : p.length ≤ 2 := by omega
    have hlen' : (p ++ [i]).length + l.length = 3 := by
      rw [List.length_append, List.length_singleton]
      omega
    rw [mapLoop]
    rcases h.entry_cases hp ht i with he | ⟨hpresent, hhuge, hnext⟩
    · -- no table yet
      rw [he, if_pos (zero_and_flags ptePresent)]
      rcases hans : A.allocZeroed a with ⟨_ | new, a₁⟩
      · refine ⟨_, m, a₁, used, rfl, hA.none hI hans, h, fun _ _ _ ↦ rfl, fun _ _ _ ↦ rfl,
          subset_rfl, fun pt hpt ↦ ?_⟩
        cases hpt
      · obtain ⟨hnew, hroot, hused, hI₁⟩ := hA.some hI hans
        obtain ⟨htables, hwalk, -, hleaf⟩ := h.link_new hp ht he hnew hroot hused
        dsimp only
        rw [or_linkFlags]
        obtain ⟨r, m', a', used', heq, hI', htables', hleaf', hoff, hsub, hr⟩ :=
          ih hI₁ htables hwalk hlen'
        refine ⟨r, m', a', used', heq, hI', htables',
          fun q j hq ↦ (hleaf' q j hq).trans (hleaf q j hq), fun x hx hxu ↦ ?_,
          (Set.subset_insert new used).trans hsub, ?_⟩
        · -- the tables written are the new one and the one that links it
          have hxnew : x ≠ new := fun hxn ↦ hxu (hsub (hxn ▸ Set.mem_insert new used))
          have hxt : x ≠ t := by
            rintro rfl
            rcases h.mem_used p x (by omega) ht with hxr | hxused
            · exact hx hxr
            · exact hxu (hsub (Set.mem_insert_of_mem new hxused))
          rw [hoff x hx hxu, PhysMem.withTable_of_ne hxt hxnew]
        · rw [List.append_cons]
          exact hr
    · -- descend into the table that is there
      rw [if_neg hpresent, if_neg (not_not.mpr hhuge), List.append_cons]
      exact ih hI h hnext hlen'

end Tables

/-! ## What the processor finds -/

/-- The frame and the permissions the processor gets from its walk, if all four entries are
present. -/
def hardwareWalk (root virt : BitVec 64) (m : PhysMem) : Option (BitVec 64 × Perms) :=
  let entries := walkEntries m (tablePath virt ++ [virtToIndices virt (Fin.last 3)]) root
  if entries.all fun e ↦ e &&& ptePresent ≠ 0 then
    some (entries.getLastD 0 &&& pteAddrMask, effective entries)
  else none

/-- The frame and the flags a page has been mapped with. -/
abbrev Mapping := BitVec 64 × PageFlags

/-- The leaf `e` is that of a mapping, or empty. -/
def Maps (e : BitVec 64) : Option Mapping → Prop
  | none => e = 0
  | some (f, flags) => FrameAddr f ∧ e = f ||| pteFlagsFrom flags

theorem Maps.grants {M : Option Mapping} (h : Maps e M) : Grants e (M.map Prod.snd) := by
  cases M with
  | none => exact h
  | some M => exact ⟨M.1, h.1, h.2⟩

theorem Maps.isLeaf {M : Option Mapping} (h : Maps e M) : e = 0 ∨ IsLeaf e := h.grants.isLeaf

theorem Maps.decode_eq {M : Option Mapping} (h : Maps e M) : decode e = M.map Prod.fst := by
  cases M with
  | none =>
    rw [show e = 0 from h, decode_zero]
    rfl
  | some M =>
    obtain ⟨hf, he⟩ := h
    rw [he, decode_leaf hf]
    rfl

theorem walkEntries_getLastD {pt : BitVec 64} (hpt : walk (link m) t l = some pt) (i : Fin 512) :
    (walkEntries m (l ++ [i]) t).getLastD 0 = (m pt).entries i := by
  induction l generalizing t with
  | nil =>
    obtain rfl := Option.some_inj.mp hpt
    rfl
  | cons j l ih =>
    rw [walk_cons] at hpt
    obtain ⟨b, hb, hpt⟩ := Option.bind_eq_some_iff.mp hpt
    rw [link] at hb
    split_ifs at hb
    obtain rfl := Option.some_inj.mp hb
    rw [List.cons_append, walkEntries, ← ih hpt]
    cases hrest : walkEntries m (l ++ [i]) ((m t).entries j &&& pteAddrMask) with
    | nil => cases l <;> cases hrest
    | cons e es => rw [List.getLastD_cons, List.getLastD_cons, List.getLastD_cons]

/-- **The processor finds the mapping.** -/
theorem Tables.hardwareWalk_eq (h : Tables root used m) {M : Option Mapping}
    (hM : Maps (leafOf m root virt) M) :
    hardwareWalk root virt m = M.map fun M ↦ (M.1, M.2.perms) := by
  have hperms := h.hardwarePerms_eq hM.grants
  rw [hardwarePerms] at hperms
  rw [hardwareWalk]
  cases M with
  | none =>
    split_ifs at hperms ⊢ with hall
    · cases hperms
    · rfl
  | some M =>
    obtain ⟨hf, he⟩ := hM
    cases hpt : walk (link m) root (tablePath virt) with
    | none =>
      rw [leafOf_of_walk_none hpt] at he
      have hpresent := IsLeaf.present ⟨M.1, M.2, hf, rfl⟩
      rw [← he] at hpresent
      exact absurd (zero_and_flags ptePresent) hpresent
    | some pt =>
      rw [leafOf_of_walk hpt] at he
      have hentry : (m pt).entries (virtToIndices virt (Fin.last 3))
          = M.1 ||| pteFlagsFrom M.2 := he
      split_ifs at hperms ⊢ with hall
      · rw [walkEntries_getLastD hpt, hentry, hf.or_and_mask (pteFlagsFrom_spec M.2).1,
          Option.some_inj.mp hperms]
        rfl
      · cases hperms

/-! ## The calls -/

/-- What has been mapped, by page number. -/
abbrev PageRecord := BitVec 64 → Option Mapping

namespace PageRecord

/-- The record after `map_page_in` answered `r`. -/
def mapped (M : PageRecord) (virt phys : BitVec 64) (flags : PageFlags) :
    Except MapError Unit → PageRecord
  | .ok () => Function.update M (pageOf virt) (some (phys &&& pteAddrMask, flags))
  | .error _ => M

/-- The record after `unmap_page_in`. -/
def unmapped (M : PageRecord) (virt : BitVec 64) : PageRecord :=
  Function.update M (pageOf virt) none

/-- The leaves in memory are those recorded. -/
def Reads (M : PageRecord) (root : BitVec 64) (m : PhysMem) : Prop :=
  ∀ v, Canonical v → Maps (leafOf m root v) (M (pageOf v))

variable {M : PageRecord}

theorem mapped_of_ne (phys : BitVec 64) (flags : PageFlags) (r : Except MapError Unit)
    {page : BitVec 64} (h : page ≠ pageOf virt) : M.mapped virt phys flags r page = M page := by
  cases r with
  | ok _ => exact Function.update_of_ne h _ _
  | error _ => rfl

theorem unmapped_of_ne {page : BitVec 64} (h : page ≠ pageOf virt) :
    M.unmapped virt page = M page := Function.update_of_ne h _ _

theorem Reads.congr (h : M.Reads root m)
    (heq : ∀ q j, q.length = 3 → leafEntry m' root q j = leafEntry m root q j) :
    M.Reads root m' := by
  intro v hv
  rw [leafOf_eq, heq _ _ rfl]
  exact h v hv

theorem Reads.set_leaf (h : M.Reads root m) (htables : Tables root used m)
    (hvirt : Canonical virt) {pt : BitVec 64}
    (hpt : walk (link m) root (tablePath virt) = some pt) {new : Option Mapping}
    (he : Maps e new) : PageRecord.Reads (Function.update M (pageOf virt) new) root
      (m.setEntry pt (virtToIndices virt 3) e) := by
  intro v hv
  have hleaf := (htables.set_leaf (i := virtToIndices virt 3) rfl hpt he.isLeaf).2 (tablePath v)
    (virtToIndices v 3) rfl
  rw [leafOf_eq, hleaf]
  by_cases hpage : pageOf v = pageOf virt
  · rw [if_pos ((tablePath_eq_iff hvirt hv).mpr hpage), hpage, Function.update_self]
    exact he
  · rw [if_neg ((tablePath_eq_iff hvirt hv).not.mpr hpage), Function.update_of_ne hpage]
    exact h v hv

theorem Reads.hardwareWalk_eq (h : M.Reads root m) (htables : Tables root used m)
    (hvirt : Canonical virt) :
    hardwareWalk root virt m = (M (pageOf virt)).map fun M ↦ (M.1, M.2.perms) :=
  htables.hardwareWalk_eq (h virt hvirt)

theorem Reads.translateIn_eq (h : M.Reads root m) (htables : Tables root used m)
    (hvirt : Canonical virt) :
    translateIn root virt m = (M (pageOf virt)).map fun M ↦ M.1 + pageOffset virt := by
  rw [htables.translateIn_eq, (h virt hvirt).decode_eq, Option.map_map]
  rfl

end PageRecord

namespace Tables

variable {M : PageRecord}

/-- A table that is written is the root or one of the frames taken. -/
theorem setEntry_off (h : Tables root used m) (hq : q.length ≤ 3)
    (ht : walk (link m) root q = some t) {x : BitVec 64} (hx : x ≠ root) (hxu : x ∉ used)
    (i : Fin 512) (e : BitVec 64) : m.setEntry t i e x = m x := by
  refine PhysMem.setEntry_of_ne ?_
  rintro rfl
  exact (h.mem_used q x hq ht).elim hx hxu

/-- **`map_page_in`**, whatever it answers. -/
theorem mapPageIn_shared (hA : A.Guards root I) (hI : I a used) (h : Tables root used m)
    (hM : M.Reads root m) (hvirt : Canonical virt) (phys : BitVec 64) (flags : PageFlags) :
    ∃ r m' a' used', mapPageIn A root virt phys flags m a = (r, m', a') ∧ I a' used' ∧
      Tables root used' m' ∧ (∀ x, x ≠ root → x ∉ used' → m' x = m x) ∧
      (M.mapped virt phys flags r).Reads root m' := by
  obtain ⟨r, m', a', used', hloop, hI', htables, hleaf, hoff, -, hr⟩ :=
    h.mapLoop_shared (l := tablePath virt) (p := []) hA hI rfl rfl
  rw [List.nil_append] at hr
  have hreads : M.Reads root m' := hM.congr hleaf
  rw [mapPageIn, ← tablePath, hloop]
  cases r with
  | error e => exact ⟨.error e, m', a', used', rfl, hI', htables, hoff, hreads⟩
  | ok pt =>
    have hpt := hr pt rfl
    dsimp only
    split_ifs with hpresent
    · exact ⟨.error .alreadyMapped, m', a', used', rfl, hI', htables, hoff, hreads⟩
    · have he : Maps (phys &&& pteAddrMask ||| pteFlagsFrom flags)
          (some (phys &&& pteAddrMask, flags)) := ⟨frameAddr_mask phys, rfl⟩
      refine ⟨.ok (), _, a', used', rfl, hI', (htables.set_leaf rfl hpt he.isLeaf).1,
        fun x hx hxu ↦ ?_, hreads.set_leaf htables hvirt hpt he⟩
      rw [htables.setEntry_off (q := tablePath virt) (Nat.le_refl 3) hpt hx hxu, hoff x hx hxu]

theorem unmapPageIn_shared (h : Tables root used m) (hM : M.Reads root m)
    (hvirt : Canonical virt) :
    ∃ m', unmapPageIn root virt m = ((M (pageOf virt)).map Prod.fst, m') ∧ Tables root used m' ∧
      (∀ x, x ≠ root → x ∉ used → m' x = m x) ∧ (M.unmapped virt).Reads root m' := by
  have hloop : unmapLoop m (tablePath virt) root = walk (link m) root (tablePath virt) :=
    h.unmapLoop_eq (p := []) rfl rfl
  have hpage := (hM virt hvirt).decode_eq
  -- an unbound page stays unbound
  have hsame : M (pageOf virt) = none → (M.unmapped virt).Reads root m := fun hnone ↦ by
    rw [PageRecord.unmapped, ← hnone, Function.update_eq_self]
    exact hM
  rw [unmapPageIn]
  dsimp only
  rw [← tablePath, hloop]
  cases hpt : walk (link m) root (tablePath virt) with
  | none =>
    rw [leafOf_of_walk_none hpt, decode_zero, eq_comm, Option.map_eq_none_iff] at hpage
    dsimp only
    rw [hpage]
    exact ⟨m, rfl, h, fun _ _ _ ↦ rfl, hsame hpage⟩
  | some pt =>
    rw [leafOf_of_walk hpt, decode] at hpage
    dsimp only
    split_ifs at hpage ⊢ with hpresent
    · rw [eq_comm, Option.map_eq_none_iff] at hpage
      rw [hpage]
      exact ⟨m, rfl, h, fun _ _ _ ↦ rfl, hsame hpage⟩
    · rw [← hpage]
      have he : Maps 0 none := rfl
      exact ⟨_, rfl, (h.set_leaf rfl hpt he.isLeaf).1,
        fun x hx hxu ↦ h.setEntry_off (q := tablePath virt) (Nat.le_refl 3) hpt hx hxu _ _,
        hM.set_leaf h hvirt hpt he⟩

end Tables

end Zeroxos
