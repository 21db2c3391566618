import Mathlib.Data.Fintype.Basic
import Zeroxos.Hal.PagingMap

/-!
# Effective permissions

The processor combines the flags of all four entries of a walk: a page can be written, or reached
from user mode, when every entry allows it, and executed when none forbids it. The entries above
the leaf are shared by many pages, so `map_page_in` makes them permissive and the leaf decides.

## The record

The system remembers beside the tables which flags each page was mapped with, and the invariant
reads that record off the leaves (`perms_exact`). Pages are told apart by their four indices, which
is all the walk sees of an address. For canonical addresses this is the page number.
-/

namespace Zeroxos

variable {σ : Type*} {A : FrameAllocator σ} {a₀ : σ} {root virt v w t e : BitVec 64} {m : PhysMem}
  {used : Set (BitVec 64)}

/-! ## What the processor derives -/

/-- What may be done with a page. -/
structure Perms where
  writable : Bool
  user : Bool
  executable : Bool
deriving DecidableEq, Repr

/-- What flags ask for. -/
def PageFlags.perms (flags : PageFlags) : Perms :=
  ⟨flags.contains .write, flags.contains .user, flags.contains .exec⟩

/-- The entries of a walk. -/
def walkEntries (m : PhysMem) : List (Fin 512) → BitVec 64 → List (BitVec 64)
  | [], _ => []
  | i :: is, t => (m t).entries i :: walkEntries m is ((m t).entries i &&& pteAddrMask)

/-- The permissions of a walk: bits 1 and 2 in all of its entries, and bit 63 in none. -/
def effective (entries : List (BitVec 64)) : Perms where
  writable := entries.all fun e ↦ e &&& pteWritable ≠ 0
  user := entries.all fun e ↦ e &&& pteUser ≠ 0
  executable := !entries.any fun e ↦ e &&& pteNoExecute ≠ 0

/-- The permissions of an address, if all four entries of its walk are present. -/
def hardwarePerms (root virt : BitVec 64) (m : PhysMem) : Option Perms :=
  let entries := walkEntries m (tablePath virt ++ [virtToIndices virt (Fin.last 3)]) root
  if entries.all fun e ↦ e &&& ptePresent ≠ 0 then some (effective entries) else none

/-! ## One walk -/

/-- The address in an entry is that of a frame, whatever address was asked for. -/
theorem frameAddr_mask (phys : BitVec 64) : FrameAddr (phys &&& pteAddrMask) := by
  have hlow : phys &&& pteAddrMask &&& 0xFFF = 0 := by
    rw [BitVec.and_assoc]
    exact BitVec.and_zero
  constructor
  · have hnat := congrArg BitVec.toNat hlow
    rw [BitVec.toNat_and] at hnat
    exact (Nat.and_two_pow_sub_one_eq_mod _ 12).symm.trans hnat
  · rw [BitVec.toNat_and]
    exact Nat.and_le_right.trans_lt (by decide)

theorem IsLink.and_flags {k : BitVec 64} (h : IsLink e) (hk : pteAddrMask &&& k = 0) :
    e &&& k = linkFlags &&& k := by
  obtain ⟨f, hf, rfl⟩ := h
  exact hf.or_and_flags hk

/-- An intermediate entry takes nothing away. -/
theorem IsLink.effective_cons (h : IsLink e) (entries : List (BitVec 64)) :
    effective (e :: entries) = effective entries := by
  have hw : e &&& pteWritable ≠ 0 := by rw [h.and_flags (by decide)]; decide
  have hu : e &&& pteUser ≠ 0 := by rw [h.and_flags (by decide)]; decide
  have hx : e &&& pteNoExecute = 0 := by rw [h.and_flags (by decide)]; decide
  simp only [effective, List.all_cons, List.any_cons, hw, hu, hx, ne_eq, not_false_eq_true,
    not_true_eq_false, decide_true, decide_false, Bool.true_and, Bool.false_or]

theorem pteFlagsFrom_perms (flags : PageFlags) :
    effective [pteFlagsFrom flags] = flags.perms := by
  unfold PageFlags.perms pteFlagsFrom
  generalize flags.contains .write = w, flags.contains .user = u,
    flags.contains .writeThrough = t, flags.contains .cacheDisable = d,
    flags.contains .global = g, flags.contains .exec = x
  revert w u t d g x
  decide

theorem effective_leaf {f : BitVec 64} (hf : FrameAddr f) (flags : PageFlags) :
    effective [f ||| pteFlagsFrom flags] = flags.perms := by
  have hk : ∀ k, pteAddrMask &&& k = 0 →
      (f ||| pteFlagsFrom flags) &&& k = pteFlagsFrom flags &&& k := fun k ↦ hf.or_and_flags
  rw [← pteFlagsFrom_perms]
  simp only [effective, List.all_cons, List.any_cons, hk pteWritable (by decide),
    hk pteUser (by decide), hk pteNoExecute (by decide), List.all_nil, List.any_nil]

namespace Tables

variable {p l : List (Fin 512)}

theorem walkEntries_of_walk (h : Tables root used m) (ht : walk (link m) root p = some t)
    (hlen : p.length + l.length = 3) {pt : BitVec 64}
    (hpt : walk (link m) root (p ++ l) = some pt) (i : Fin 512) :
    effective (walkEntries m (l ++ [i]) t) = effective [(m pt).entries i] ∧
      ((walkEntries m (l ++ [i]) t).all fun e ↦ e &&& ptePresent ≠ 0)
        = decide ((m pt).entries i &&& ptePresent ≠ 0) := by
  induction l generalizing p t with
  | nil =>
    rw [List.append_nil, ht] at hpt
    obtain rfl := Option.some_inj.mp hpt
    exact ⟨rfl, Bool.and_true _⟩
  | cons j l ih =>
    rw [List.length_cons] at hlen
    rw [List.append_cons] at hpt
    have hnext : walk (link m) root (p ++ [j]) = link m t j := by
      rw [walk_concat, ht, Option.bind_some]
    rcases h.entry p t j (by omega) ht with he | he
    · rw [walk_append, hnext, link_eq_none he] at hpt
      cases hpt
    · rw [link_of_isLink he] at hnext
      obtain ⟨heff, hall⟩ := ih hnext
        (by rw [List.length_append, List.length_singleton]; omega) hpt
      rw [List.cons_append, walkEntries, he.effective_cons, List.all_cons, hall,
        decide_eq_true he.present]
      exact ⟨heff, Bool.true_and _⟩

theorem walkEntries_of_walk_none (h : Tables root used m) (ht : walk (link m) root p = some t)
    (hlen : p.length + l.length = 3) (hnone : walk (link m) root (p ++ l) = none)
    (i : Fin 512) : ((walkEntries m (l ++ [i]) t).all fun e ↦ e &&& ptePresent ≠ 0) = false := by
  induction l generalizing p t with
  | nil =>
    rw [List.append_nil, ht] at hnone
    cases hnone
  | cons j l ih =>
    rw [List.length_cons] at hlen
    rw [List.append_cons] at hnone
    rw [List.cons_append, walkEntries, List.all_cons]
    rcases h.entry p t j (by omega) ht with he | he
    · rw [he, decide_eq_false (not_not.mpr (zero_and_flags ptePresent)), Bool.false_and]
    · have hnext : walk (link m) root (p ++ [j]) = some ((m t).entries j &&& pteAddrMask) := by
        rw [walk_concat, ht, Option.bind_some, link_of_isLink he]
      rw [ih hnext (by rw [List.length_append, List.length_singleton]; omega) hnone,
        Bool.and_false]

end Tables

/-- The leaf `e` grants what was asked for: nothing, or the flags of a mapping. -/
def Grants (e : BitVec 64) : Option PageFlags → Prop
  | none => e = 0
  | some flags => ∃ f, FrameAddr f ∧ e = f ||| pteFlagsFrom flags

theorem Grants.isLeaf {granted : Option PageFlags} (h : Grants e granted) : e = 0 ∨ IsLeaf e := by
  cases granted with
  | none => exact .inl h
  | some flags =>
    obtain ⟨f, hf, he⟩ := h
    exact .inr ⟨f, flags, hf, he⟩

theorem Grants.present_iff {granted : Option PageFlags} (h : Grants e granted) :
    e &&& ptePresent ≠ 0 ↔ granted.isSome := by
  cases granted with
  | none => exact iff_of_false (not_not.mpr (h ▸ zero_and_flags ptePresent)) Bool.false_ne_true
  | some flags =>
    obtain ⟨f, hf, he⟩ := h
    exact iff_of_true (IsLeaf.present ⟨f, flags, hf, he⟩) rfl

theorem Grants.isSome_decode {granted : Option PageFlags} (h : Grants e granted) :
    (decode e).isSome = granted.isSome := by
  rw [decode, Bool.eq_iff_iff, ← h.present_iff]
  split_ifs with hpresent
  · exact iff_of_false Bool.false_ne_true (not_not.mpr hpresent)
  · exact iff_of_true rfl hpresent

/-- **The walk gives what the leaf grants.** -/
theorem Tables.hardwarePerms_eq (h : Tables root used m) {granted : Option PageFlags}
    (hgrants : Grants (leafOf m root virt) granted) :
    hardwarePerms root virt m = granted.map PageFlags.perms := by
  rw [hardwarePerms]
  cases hpt : walk (link m) root (tablePath virt) with
  | none =>
    rw [leafOf_of_walk_none hpt] at hgrants
    rw [h.walkEntries_of_walk_none (p := []) (l := tablePath virt) rfl rfl hpt,
      if_neg Bool.false_ne_true]
    cases granted with
    | none => rfl
    | some flags => exact absurd (zero_and_flags ptePresent) (hgrants.present_iff.mpr rfl)
  | some pt =>
    rw [leafOf_of_walk hpt] at hgrants
    obtain ⟨heff, hall⟩ :=
      h.walkEntries_of_walk (p := []) (l := tablePath virt) rfl rfl hpt
        (virtToIndices virt (Fin.last 3))
    have hpresent : decide ((m pt).entries (virtToIndices virt (Fin.last 3)) &&& ptePresent ≠ 0)
        = granted.isSome := by
      rw [Bool.eq_iff_iff, decide_eq_true_iff]
      exact hgrants.present_iff
    rw [hall, heff, hpresent]
    cases granted with
    | none => rfl
    | some flags =>
      obtain ⟨f, hf, he⟩ := hgrants
      have hentry : (m pt).entries (virtToIndices virt (Fin.last 3)) = f ||| pteFlagsFrom flags :=
        he
      rw [hentry, effective_leaf hf]
      rfl

/-! ## The system -/

/-- A call that may change the tables. -/
inductive PermCall
  | map (virt phys : BitVec 64) (flags : PageFlags)
  | unmap (virt : BitVec 64)

/-- The address a call is about. -/
def PermCall.target : PermCall → BitVec 64
  | map virt _ _ => virt
  | unmap virt => virt

/-- Memory and allocator, and the flags each page was mapped with. -/
structure PermSys (σ : Type*) where
  mem : PhysMem
  frames : σ
  granted : (Fin 4 → Fin 512) → Option PageFlags

namespace PermSys

/-- One call. The record follows what the call answers. -/
def step (A : FrameAllocator σ) (root : BitVec 64) (s : PermSys σ) : PermCall → PermSys σ
  | .map virt phys flags =>
    match mapPageIn A root virt phys flags s.mem s.frames with
    | (.ok (), m, a) => ⟨m, a, Function.update s.granted (virtToIndices virt) (some flags)⟩
    | (.error _, m, a) => ⟨m, a, s.granted⟩
  | .unmap virt =>
    match unmapPageIn root virt s.mem with
    | (some _, m) => ⟨m, s.frames, Function.update s.granted (virtToIndices virt) none⟩
    | (none, m) => ⟨m, s.frames, s.granted⟩

/-- Calls for any addresses and flags, from a zeroed PML4 and an allocator in the state `a₀`. -/
def machine (A : FrameAllocator σ) (root : BitVec 64) (a₀ : σ) : Machine (PermSys σ) PermCall where
  init s := s.mem root = PageTable.empty ∧ s.frames = a₀ ∧ s.granted = fun _ ↦ none
  Legal _ _ := True
  next s call := some (s.step A root call)

instance (a₀ : σ) (s : PermSys σ) (call : PermCall) :
    Decidable ((machine A root a₀).Legal s call) := inferInstanceAs (Decidable True)

/-- The tables are a tree, and each leaf grants what the record says. -/
structure Inv (A : FrameAllocator σ) (root : BitVec 64) (a₀ : σ) (n : ℕ) (s : PermSys σ) :
    Prop where
  tables : Tables root (A.taken a₀ n) s.mem
  frames : s.frames = A.after a₀ n
  grants : ∀ v, Grants (leafOf s.mem root v) (s.granted (virtToIndices v))

end PermSys

/-- The runs of `map_page_in` and `unmap_page_in`. -/
def permSystem (A : FrameAllocator σ) (root : BitVec 64) (a₀ : σ) :
    TransitionSystem (PermSys σ) PermCall := (PermSys.machine A root a₀).system

theorem virtToIndices_eq_iff : virtToIndices w = virtToIndices v ↔
    tablePath w = tablePath v ∧ virtToIndices w 3 = virtToIndices v 3 := by
  constructor
  · intro h
    rw [tablePath, tablePath, h]
    exact ⟨rfl, rfl⟩
  · rintro ⟨hpath, hlast⟩
    injection hpath with h0 hpath
    injection hpath with h1 hpath
    injection hpath with h2
    funext i
    rcases i with ⟨_ | _ | _ | _ | i, hi⟩
    · exact h0
    · exact h1
    · exact h2
    · exact hlast
    · omega

/-- **Pages and indices**, again. -/
theorem virtToIndices_eq_iff_pageOf (hv : Canonical v) (hw : Canonical w) :
    virtToIndices w = virtToIndices v ↔ pageOf w = pageOf v :=
  virtToIndices_eq_iff.trans (tablePath_eq_iff hv hw)

namespace PermSys

variable {s : PermSys σ} {n : ℕ}

theorem grants_set_leaf {pt : BitVec 64} {granted : (Fin 4 → Fin 512) → Option PageFlags}
    {new : Option PageFlags} (htables : Tables root used m)
    (hgrants : ∀ v, Grants (leafOf m root v) (granted (virtToIndices v)))
    (hpt : walk (link m) root (tablePath virt) = some pt) (he : Grants e new) (v : BitVec 64) :
    Grants (leafOf (m.setEntry pt (virtToIndices virt 3) e) root v)
      (Function.update granted (virtToIndices virt) new (virtToIndices v)) := by
  have hleaf := (htables.set_leaf (i := virtToIndices virt 3) rfl hpt he.isLeaf).2 (tablePath v)
    (virtToIndices v 3) rfl
  rw [leafOf_eq, hleaf]
  by_cases hpage : virtToIndices v = virtToIndices virt
  · rw [if_pos (virtToIndices_eq_iff.mp hpage), hpage, Function.update_self]
    exact he
  · rw [if_neg (virtToIndices_eq_iff.not.mp hpage), Function.update_of_ne hpage]
    exact hgrants v

theorem inv_init (hs : (machine A root a₀).init s) : s.Inv A root a₀ 0 := by
  obtain ⟨hroot, hframes, hgranted⟩ := hs
  have hzero : ∀ i, (s.mem root).entries i = 0 := fun i ↦ by
    rw [hroot]
    rfl
  refine ⟨.of_zero hzero, hframes, fun v ↦ ?_⟩
  rw [hgranted, Tables.leafOf_of_walk_none (Tables.walk_cons_of_zero hzero _ _)]
  rfl

/-- **`map_page_in`**, whatever it answers. -/
theorem Inv.map (hA : A.Fresh root a₀) (h : s.Inv A root a₀ n) (virt phys : BitVec 64)
    (flags : PageFlags) : ∃ n', (s.step A root (.map virt phys flags)).Inv A root a₀ n' := by
  obtain ⟨r, m', n', hloop, htables, hleaf, hr⟩ :=
    h.tables.mapLoop_spec (l := tablePath virt) (p := []) hA rfl rfl
  have hgrants : ∀ v, Grants (leafOf m' root v) (s.granted (virtToIndices v)) := by
    intro v
    rw [leafOf_eq, hleaf _ _ rfl]
    exact h.grants v
  rw [List.nil_append] at hr
  refine ⟨n', ?_⟩
  rw [step, mapPageIn, ← tablePath, h.frames, hloop]
  rcases hr with ⟨pt, rfl, hpt, -⟩ | ⟨rfl, -⟩
  · dsimp only
    by_cases hpresent : (m' pt).entries (virtToIndices virt 3) &&& ptePresent = 0
    · rw [if_neg (not_not.mpr hpresent)]
      have he : Grants (phys &&& pteAddrMask ||| pteFlagsFrom flags) (some flags) :=
        ⟨_, frameAddr_mask phys, rfl⟩
      exact ⟨(htables.set_leaf rfl hpt he.isLeaf).1, rfl, grants_set_leaf htables hgrants hpt he⟩
    · rw [if_pos hpresent]
      exact ⟨htables, rfl, hgrants⟩
  · exact ⟨htables, rfl, hgrants⟩

theorem Inv.unmap (h : s.Inv A root a₀ n) (virt : BitVec 64) :
    (s.step A root (.unmap virt)).Inv A root a₀ n := by
  have hloop : unmapLoop s.mem (tablePath virt) root = walk (link s.mem) root (tablePath virt) :=
    h.tables.unmapLoop_eq (p := []) rfl rfl
  rw [step, unmapPageIn]
  dsimp only
  rw [← tablePath, hloop]
  cases hpt : walk (link s.mem) root (tablePath virt) with
  | none => exact h
  | some pt =>
    dsimp only
    by_cases hpresent : (s.mem pt).entries (virtToIndices virt 3) &&& ptePresent = 0
    · rw [if_pos hpresent]
      exact h
    · rw [if_neg hpresent]
      have hnone : Grants 0 none := rfl
      exact ⟨(h.tables.set_leaf rfl hpt (.inl rfl)).1, h.frames,
        grants_set_leaf h.tables h.grants hpt hnone⟩

theorem Inv.step_ok (hA : A.Fresh root a₀) (h : s.Inv A root a₀ n) (call : PermCall) :
    ∃ n', (s.step A root call).Inv A root a₀ n' := by
  cases call with
  | map virt phys flags => exact h.map hA virt phys flags
  | unmap virt => exact ⟨n, h.unmap virt⟩

theorem inv_of_reachable (hA : A.Fresh root a₀) (h : (permSystem A root a₀).Reachable s) :
    ∃ n, s.Inv A root a₀ n := by
  refine h.invariant (P := fun s ↦ ∃ n, s.Inv A root a₀ n) (fun s hs ↦ ⟨0, inv_init hs⟩)
    fun s call s' _ ⟨n, hinv⟩ ⟨_, hnext⟩ ↦ ?_
  obtain rfl := Option.some_inj.mp hnext
  exact hinv.step_ok hA call

theorem granted_step_of_ne (s : PermSys σ) (call : PermCall)
    (h : virtToIndices v ≠ virtToIndices call.target) :
    (s.step A root call).granted (virtToIndices v) = s.granted (virtToIndices v) := by
  cases call with
  | map virt phys flags =>
    rw [step]
    split
    · exact Function.update_of_ne h _ _
    · rfl
  | unmap virt =>
    rw [step]
    split
    · exact Function.update_of_ne h _ _
    · rfl

theorem Inv.hardwarePerms_eq (h : s.Inv A root a₀ n) (v : BitVec 64) :
    hardwarePerms root v s.mem = (s.granted (virtToIndices v)).map PageFlags.perms :=
  h.tables.hardwarePerms_eq (h.grants v)

/-- What holds of the permissions in every state. -/
structure PermsExact (A : FrameAllocator σ) (root : BitVec 64) (s : PermSys σ) : Prop where
  /-- A page that is mapped has the permissions of its flags, and one that is not has none. -/
  perms : ∀ v, hardwarePerms root v s.mem = (s.granted (virtToIndices v)).map PageFlags.perms
  /-- What is mapped is what translates. -/
  mapped : ∀ v, (translateIn root v s.mem).isSome = (s.granted (virtToIndices v)).isSome
  /-- A call about one page changes the permissions of no other. -/
  frame : ∀ (call : PermCall) v, virtToIndices v ≠ virtToIndices call.target →
    hardwarePerms root v (s.step A root call).mem = hardwarePerms root v s.mem
  /-- The same, for page numbers. -/
  frame_page : ∀ (call : PermCall) v, Canonical v → Canonical call.target →
    pageOf v ≠ pageOf call.target →
    hardwarePerms root v (s.step A root call).mem = hardwarePerms root v s.mem

end PermSys

open PermSys in
/-- **Effective permissions are the requested ones.** -/
theorem perms_exact (hA : A.Fresh root a₀) {s : PermSys σ}
    (hs : (permSystem A root a₀).Reachable s) : s.PermsExact A root := by
  obtain ⟨n, hinv⟩ := inv_of_reachable hA hs
  have hframe : ∀ (call : PermCall) v, virtToIndices v ≠ virtToIndices call.target →
      hardwarePerms root v (s.step A root call).mem = hardwarePerms root v s.mem := by
    intro call v hne
    obtain ⟨n', hinv'⟩ := hinv.step_ok hA call
    rw [hinv'.hardwarePerms_eq, hinv.hardwarePerms_eq, granted_step_of_ne s call hne]
  refine ⟨hinv.hardwarePerms_eq, fun v ↦ ?_, hframe, fun call v hv hcall hne ↦
    hframe call v ((virtToIndices_eq_iff_pageOf hcall hv).not.mpr hne)⟩
  rw [hinv.tables.translateIn_eq, Option.isSome_map, (hinv.grants v).isSome_decode]

/-- A writable page for the user, and an executable one beside it that is taken away again. -/
theorem perms_exact_pool : PermSys.PermsExact pool 0
    (((PermSys.machine pool 0 1).run
      [.map 0x7F0012345000 0x10000 (.write ||| .user), .map 0x7F0012346000 0x11000 .exec,
        .unmap 0x7F0012346000]
      ⟨fun _ ↦ PageTable.empty, 1, fun _ ↦ none⟩).get (by decide +kernel)) :=
  perms_exact pool_fresh (Machine.reachable_run (.init ⟨rfl, rfl, rfl⟩) (Option.some_get _).symm)

end Zeroxos
