import Zeroxos.Hal.PagingTree

/-!
# Huge pages

A PS entry of a PDPT maps 1 GiB and one of a PD maps 2 MiB: the physical address takes its low 30 or
21 bits from the virtual address and the others, up to bit 51, from the entry. What the entry has
between bit 12 and the page size is no part of the address; bit 12 is the PAT bit there, and the
rest is reserved.

## The condition

`translate_in` masks every entry alike, with the mask of a 4 KiB page, and adds the offset. That is
the architecture's address exactly when those bits are clear. It looks for the PS bit in the PML4
too, where it is reserved, and then answers with an address of a page of 512 GiB. The two walks
agree exactly when neither happens on the way (`huge_agrees_iff`), in any memory.
-/

namespace Zeroxos

/-! ## The entries on the way -/

/-- The entry is present. -/
def Present (e : BitVec 64) : Prop := e &&& ptePresent ≠ 0

/-- The entry has its PS bit set. -/
def Huge (e : BitVec 64) : Prop := e &&& pteHuge ≠ 0

instance (e : BitVec 64) : Decidable (Present e) := inferInstanceAs (Decidable (_ ≠ _))

instance (e : BitVec 64) : Decidable (Huge e) := inferInstanceAs (Decidable (_ ≠ _))

/-- The walk meets a PS entry in the PDPT. -/
def MeetsPdpt (m : PhysMem) (root virt : BitVec 64) : Prop :=
  Present (pml4Entry m root virt) ∧ Present (pdptEntry m root virt) ∧ Huge (pdptEntry m root virt)

/-- The walk meets a PS entry in the PD. -/
def MeetsPd (m : PhysMem) (root virt : BitVec 64) : Prop :=
  Present (pml4Entry m root virt) ∧ (Present (pdptEntry m root virt) ∧
    ¬Huge (pdptEntry m root virt)) ∧ Present (pdEntry m root virt) ∧ Huge (pdEntry m root virt)

/-- The address a PS entry of a page of `2 ^ shift` bytes gives. -/
def HugeAddr (shift : ℕ) (e virt pa : BitVec 64) : Prop :=
  ∀ i, pa.getLsbD i = if i < shift then virt.getLsbD i else decide (i < 52) && e.getLsbD i

/-- The bits between 12 and the page size are clear. -/
def LowClear (shift : ℕ) (e : BitVec 64) : Prop := ∀ i, 12 ≤ i → i < shift → e.getLsbD i = false

/-- **Huge pages as the architecture has them.** -/
structure HugeAgrees (m : PhysMem) (root virt : BitVec 64) : Prop where
  /-- A PS entry of the PDPT maps 1 GiB. -/
  pdpt : MeetsPdpt m root virt →
    ∃ pa, translateIn root virt m = some pa ∧ HugeAddr 30 (pdptEntry m root virt) virt pa
  /-- A PS entry of the PD maps 2 MiB. -/
  pd : MeetsPd m root virt →
    ∃ pa, translateIn root virt m = some pa ∧ HugeAddr 21 (pdEntry m root virt) virt pa
  /-- The loop never answers with an address at the PML4. -/
  pml4 : ∀ pa, translateLoop virt m 0 [virtToIndices virt 0] root ≠ .error (some pa)

/-! ## Base and offset -/

section Address

variable {e virt pa : BitVec 64} {shift : ℕ}

theorem getLsbD_offsetMask (h : shift ≤ 52) (i : ℕ) :
    (((1 : BitVec 64) <<< shift) - 1).getLsbD i = decide (i < shift) := by
  have hlt : 2 ^ shift < 2 ^ 64 := Nat.pow_lt_pow_right (by decide) (by omega)
  have hone : ((1 : BitVec 64) <<< shift).toNat = 2 ^ shift := by
    rw [BitVec.toNat_shiftLeft, Nat.shiftLeft_eq]
    exact (Nat.mod_eq_of_lt (by simpa using hlt)).trans (Nat.one_mul _)
  have hmask : (((1 : BitVec 64) <<< shift) - 1).toNat = 2 ^ shift - 1 := by
    rw [BitVec.toNat_sub_of_le, hone]
    · rfl
    · rw [BitVec.le_def, hone]
      exact Nat.one_le_two_pow
  rw [← BitVec.testBit_toNat, hmask, Nat.testBit_two_pow_sub_one]

/-- The address of the page: the entry without the bits below the page size. -/
def pageBase (shift : ℕ) (e : BitVec 64) : BitVec 64 :=
  e &&& pteAddrMask &&& ~~~(((1 : BitVec 64) <<< shift) - 1)

theorem getLsbD_offset (h : shift ≤ 52) (virt : BitVec 64) (i : ℕ) :
    (virt &&& (((1 : BitVec 64) <<< shift) - 1)).getLsbD i =
      (virt.getLsbD i && decide (i < shift)) := by
  rw [BitVec.getLsbD_and, getLsbD_offsetMask h]

theorem getLsbD_frame (e : BitVec 64) (i : ℕ) : (e &&& pteAddrMask).getLsbD i =
    (e.getLsbD i && (decide (12 ≤ i) && decide (i < 52))) := by
  rw [BitVec.getLsbD_and, getLsbD_pteAddrMask]

theorem getLsbD_pageBase (hlow : 12 ≤ shift) (hhigh : shift ≤ 52) (e : BitVec 64) (i : ℕ) :
    (pageBase shift e).getLsbD i = (e.getLsbD i && (decide (shift ≤ i) && decide (i < 52))) := by
  rw [pageBase, BitVec.getLsbD_and, getLsbD_frame, BitVec.getLsbD_not, getLsbD_offsetMask hhigh]
  by_cases hi : i < shift
  · simp [hi, not_le.mpr hi]
  · by_cases hword : i < 64
    · simp [not_lt.mp hi, hlow.trans (not_lt.mp hi), hword]
    · rw [BitVec.getLsbD_of_ge e i (not_lt.mp hword)]
      simp

/-- Base and offset have no bit in common, so that their sum has the bits of both. -/
theorem getLsbD_pageBase_add (hlow : 12 ≤ shift) (hhigh : shift ≤ 52) (e virt : BitVec 64)
    (i : ℕ) :
    (pageBase shift e + (virt &&& (((1 : BitVec 64) <<< shift) - 1))).getLsbD i =
      if i < shift then virt.getLsbD i else decide (i < 52) && e.getLsbD i := by
  have hdisjoint : pageBase shift e &&& (virt &&& (((1 : BitVec 64) <<< shift) - 1)) = 0 := by
    apply BitVec.eq_of_getLsbD_eq
    intro i _
    rw [BitVec.getLsbD_and, getLsbD_pageBase hlow hhigh, getLsbD_offset hhigh]
    by_cases hi : i < shift
    · simp [not_le.mpr hi]
    · simp [hi]
  rw [BitVec.add_eq_or_of_and_eq_zero _ _ hdisjoint, BitVec.getLsbD_or,
    getLsbD_pageBase hlow hhigh, getLsbD_offset hhigh]
  split_ifs with hi
  · simp [hi, not_le.mpr hi]
  · simp [hi, not_lt.mp hi, Bool.and_comm]

theorem hugeAddr_iff_eq (hlow : 12 ≤ shift) (hhigh : shift ≤ 52) (e virt pa : BitVec 64) :
    HugeAddr shift e virt pa ↔
      pa = pageBase shift e + (virt &&& (((1 : BitVec 64) <<< shift) - 1)) := by
  constructor
  · intro h
    apply BitVec.eq_of_getLsbD_eq
    intro i _
    rw [h i, getLsbD_pageBase_add hlow hhigh]
  · rintro rfl i
    exact getLsbD_pageBase_add hlow hhigh e virt i

/-- Masked as for a 4 KiB page, the entry still gives the base if nothing is below the page size. -/
theorem frame_eq_pageBase_iff (hlow : 12 ≤ shift) (hhigh : shift ≤ 52) (e : BitVec 64) :
    e &&& pteAddrMask = pageBase shift e ↔ LowClear shift e := by
  constructor
  · intro h i hi hlt
    have hbit := congrArg (fun x ↦ x.getLsbD i) h
    rw [getLsbD_frame, getLsbD_pageBase hlow hhigh] at hbit
    simpa [hi, not_le.mpr hlt, show i < 52 by omega] using hbit
  · intro h
    apply BitVec.eq_of_getLsbD_eq
    intro i _
    rw [getLsbD_frame, getLsbD_pageBase hlow hhigh]
    by_cases hi : 12 ≤ i
    · by_cases hlt : i < shift
      · simp [h i hi hlt]
      · simp [hi, not_lt.mp hlt]
    · simp [hi, show ¬shift ≤ i by omega]

/-- **The sum is the architecture's address** exactly when the bits below the page size are
clear. -/
theorem hugeAddr_add_iff (hlow : 12 ≤ shift) (hhigh : shift ≤ 52) (e virt : BitVec 64) :
    HugeAddr shift e virt ((e &&& pteAddrMask) + (virt &&& (((1 : BitVec 64) <<< shift) - 1))) ↔
      LowClear shift e := by
  rw [hugeAddr_iff_eq hlow hhigh, BitVec.add_left_inj]
  exact frame_eq_pageBase_iff hlow hhigh e

end Address

/-! ## The walk -/

/-- What makes the address of a huge page come out right: no PS bit in the PML4 entry, and in the
entry that maps the page no bit below the page size. -/
structure HugeClean (m : PhysMem) (root virt : BitVec 64) : Prop where
  pml4 : Present (pml4Entry m root virt) → ¬Huge (pml4Entry m root virt)
  pdpt : MeetsPdpt m root virt → LowClear 30 (pdptEntry m root virt)
  pd : MeetsPd m root virt → LowClear 21 (pdEntry m root virt)

namespace HugePages

variable {m : PhysMem} {root virt table : BitVec 64} {i : Fin 512} {l : List (Fin 512)} {level : ℕ}

theorem translateLoop_huge (hpresent : Present ((m table).entries i))
    (hhuge : Huge ((m table).entries i)) :
    translateLoop virt m level (i :: l) table = .error (some (((m table).entries i &&& pteAddrMask)
      + (virt &&& (((1 : BitVec 64) <<< (39 - 9 * level)) - 1)))) := by
  have hbit : (m table).entries i &&& pteHuge ≠ 0 := hhuge
  rw [translateLoop, if_neg hpresent, if_pos hbit]

theorem translateLoop_table (hpresent : Present ((m table).entries i))
    (hhuge : ¬Huge ((m table).entries i)) :
    translateLoop virt m level (i :: l) table =
      translateLoop virt m (level + 1) l ((m table).entries i &&& pteAddrMask) := by
  have hbit : ¬(m table).entries i &&& pteHuge ≠ 0 := hhuge
  rw [translateLoop, if_neg hpresent, if_neg hbit]

theorem translateLoop_absent (hpresent : ¬Present ((m table).entries i)) :
    translateLoop virt m level (i :: l) table = .error none := by
  rw [translateLoop, if_pos (not_not.mp hpresent)]

/-- The PML4 answers with an address exactly when its entry has the PS bit. -/
theorem pml4_iff : (∀ pa, translateLoop virt m 0 [virtToIndices virt 0] root ≠ .error (some pa)) ↔
    (Present (pml4Entry m root virt) → ¬Huge (pml4Entry m root virt)) := by
  by_cases hpresent : Present (pml4Entry m root virt)
  · by_cases hhuge : Huge (pml4Entry m root virt)
    · exact iff_of_false (fun h ↦ h _ (translateLoop_huge hpresent hhuge)) fun h ↦ h hpresent hhuge
    · refine iff_of_true (fun pa h ↦ ?_) fun _ ↦ hhuge
      rw [translateLoop_table hpresent hhuge, translateLoop] at h
      cases h
  · refine iff_of_true (fun pa h ↦ ?_) fun h ↦ absurd h hpresent
    rw [translateLoop_absent hpresent] at h
    cases h

theorem translateLoop_pdpt (hpresent : Present (pml4Entry m root virt))
    (hhuge : ¬Huge (pml4Entry m root virt)) :
    translateLoop virt m 0 [virtToIndices virt 0, virtToIndices virt 1, virtToIndices virt 2] root =
      translateLoop virt m 1 [virtToIndices virt 1, virtToIndices virt 2]
        (pml4Entry m root virt &&& pteAddrMask) :=
  translateLoop_table hpresent hhuge

theorem translateIn_of_meetsPdpt (hpml4 : ¬Huge (pml4Entry m root virt))
    (h : MeetsPdpt m root virt) :
    translateIn root virt m = some ((pdptEntry m root virt &&& pteAddrMask)
      + (virt &&& (((1 : BitVec 64) <<< 30) - 1))) := by
  have hwalk := (translateLoop_pdpt h.1 hpml4).trans (translateLoop_huge h.2.1 h.2.2)
  rw [translateIn]
  dsimp only
  rw [hwalk]
  rfl

theorem translateIn_of_meetsPd (hpml4 : ¬Huge (pml4Entry m root virt)) (h : MeetsPd m root virt) :
    translateIn root virt m = some ((pdEntry m root virt &&& pteAddrMask)
      + (virt &&& (((1 : BitVec 64) <<< 21) - 1))) := by
  have hwalk := ((translateLoop_pdpt h.1 hpml4).trans
    (translateLoop_table h.2.1.1 h.2.1.2)).trans (translateLoop_huge h.2.2.1 h.2.2.2)
  rw [translateIn]
  dsimp only
  rw [hwalk]
  rfl

theorem clean_of_agrees (h : HugeAgrees m root virt) : HugeClean m root virt := by
  have hpml4 := pml4_iff.mp h.pml4
  refine ⟨hpml4, fun hmeets ↦ ?_, fun hmeets ↦ ?_⟩
  · obtain ⟨pa, hpa, haddr⟩ := h.pdpt hmeets
    rw [translateIn_of_meetsPdpt (hpml4 hmeets.1) hmeets, Option.some_inj] at hpa
    exact (hugeAddr_add_iff (by decide) (by decide) _ _).mp (hpa ▸ haddr)
  · obtain ⟨pa, hpa, haddr⟩ := h.pd hmeets
    rw [translateIn_of_meetsPd (hpml4 hmeets.1) hmeets, Option.some_inj] at hpa
    exact (hugeAddr_add_iff (by decide) (by decide) _ _).mp (hpa ▸ haddr)

theorem agrees_of_clean (h : HugeClean m root virt) : HugeAgrees m root virt := by
  refine ⟨fun hmeets ↦ ⟨_, translateIn_of_meetsPdpt (h.pml4 hmeets.1) hmeets, ?_⟩,
    fun hmeets ↦ ⟨_, translateIn_of_meetsPd (h.pml4 hmeets.1) hmeets, ?_⟩, pml4_iff.mpr h.pml4⟩
  · exact (hugeAddr_add_iff (by decide) (by decide) _ _).mpr (h.pdpt hmeets)
  · exact (hugeAddr_add_iff (by decide) (by decide) _ _).mpr (h.pd hmeets)

end HugePages

open HugePages in
/-- **Huge pages are translated** as the architecture has them exactly when the PML4 entry has no PS
bit, and the entry that maps the page has no bit between bit 12 and the page size. -/
theorem huge_agrees_iff (m : PhysMem) (root virt : BitVec 64) :
    HugeAgrees m root virt ↔ HugeClean m root virt := by
  constructor
  · exact clean_of_agrees
  · exact agrees_of_clean

/-- The entries on the way have no reserved bit set: a PML4 entry has no PS bit, and a PS entry of
a PDPT or a PD has only the PAT bit below the page size. -/
structure LegalWalk (m : PhysMem) (root virt : BitVec 64) : Prop where
  pml4 : ¬Huge (pml4Entry m root virt)
  pdpt : Huge (pdptEntry m root virt) → ∀ i, 13 ≤ i → i < 30 →
    (pdptEntry m root virt).getLsbD i = false
  pd : Huge (pdEntry m root virt) → ∀ i, 13 ≤ i → i < 21 → (pdEntry m root virt).getLsbD i = false

namespace HugePages

/-- A PML4, a PDPT and a PD, whose first entries map the 2 MiB at `0x200000` with the PAT bit. -/
def patMem : PhysMem := fun table ↦
  ⟨fun i ↦ if (i : ℕ) = 0 then
    if table = 0x1000 then 0x2003
    else if table = 0x2000 then 0x3003
    else if table = 0x3000 then 0x201083
    else 0
  else 0⟩

theorem patMem_legal : LegalWalk patMem 0x1000 0 where
  pml4 := by decide
  pdpt := by decide
  pd _ i hi hlt := by
    have hbit : ∀ i : Fin 21, 13 ≤ (i : ℕ) → (pdEntry patMem 0x1000 0).getLsbD i = false := by
      decide
    exact hbit ⟨i, hlt⟩ hi

end HugePages

open HugePages in
/-- **The PAT bit goes into the address** of a 2 MiB page. -/
theorem huge_pat_bit :
    ¬∀ m root virt, LegalWalk m root virt → HugeAgrees m root virt := by
  intro h
  have hclean := clean_of_agrees (h patMem 0x1000 0 patMem_legal)
  have hmeets : MeetsPd patMem 0x1000 0 := ⟨by decide, ⟨by decide, by decide⟩, by decide, by decide⟩
  have hbit := hclean.pd hmeets 12 (by decide) (by decide)
  exact absurd hbit (by decide)

end Zeroxos
