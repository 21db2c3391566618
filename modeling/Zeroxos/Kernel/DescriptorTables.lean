import Zeroxos.Library.DescriptorTable
import Zeroxos.Library.Rust

/-!
# The descriptor tables of the kernel

`arch/x86_64/gdt.rs`, `tss.rs` and the tables of `idt.rs`: the structures, the fields that an
address is split over, and the bytes that `repr(C, packed)` makes of them.

## Reading back

The source checks the encoding by tests of single values; here it is read back by the processor
(`gateIn_new`, `read_ist`, `read_new`), for all values. What the processor does not look at, such as
the reserved fields, is laid out all the same, since it decides where the other fields are.
-/

namespace Zeroxos

open ByteMem

variable {m : ByteMem} {a : Word}

/-! ## Gates -/

structure IdtEntry where
  offsetLow : BitVec 16
  selector : BitVec 16
  ist : BitVec 8
  typeAttr : BitVec 8
  offsetMid : BitVec 16
  offsetHigh : BitVec 32
  reserved : BitVec 32
deriving DecidableEq

def gateInterrupt : BitVec 8 := 0xE

def gateTrap : BitVec 8 := 0xF

namespace IdtEntry

def missing : IdtEntry := ⟨0, 0, 0, 0, 0, 0, 0⟩

def new (handler : Word) (selector : BitVec 16) (ist gate dpl : BitVec 8) : IdtEntry where
  offsetLow := (handler &&& 0xFFFF).setWidth 16
  selector := selector
  ist := ist &&& 0x7
  typeAttr := (0x80 : BitVec 8) ||| (dpl &&& 0x3) <<< 5 ||| gate &&& 0xF
  offsetMid := (handler >>> 16 &&& 0xFFFF).setWidth 16
  offsetHigh := (handler >>> 32 &&& 0xFFFFFFFF).setWidth 32
  reserved := 0

def offset (e : IdtEntry) : Word :=
  e.offsetLow.setWidth 64 ||| e.offsetMid.setWidth 64 <<< 16 ||| e.offsetHigh.setWidth 64 <<< 32

/-- The sixteen bytes of an entry. -/
def bytes (e : IdtEntry) : List (BitVec 8) :=
  toLeBytes 2 e.offsetLow.toNat ++ (toLeBytes 2 e.selector.toNat ++ (toLeBytes 1 e.ist.toNat ++
    (toLeBytes 1 e.typeAttr.toNat ++ (toLeBytes 2 e.offsetMid.toNat ++
      (toLeBytes 4 e.offsetHigh.toNat ++ toLeBytes 4 e.reserved.toNat)))))

@[simp] theorem length_bytes (e : IdtEntry) : e.bytes.length = 16 := by simp [bytes]

theorem offset_toNat (e : IdtEntry) : e.offset.toNat
    = e.offsetLow.toNat + 2 ^ 16 * e.offsetMid.toNat + 2 ^ 32 * e.offsetHigh.toNat := by
  have hwidth : (e.offsetLow.setWidth 64).toNat = e.offsetLow.toNat ∧
      (e.offsetMid.setWidth 64).toNat = e.offsetMid.toNat ∧
      (e.offsetHigh.setWidth 64).toNat = e.offsetHigh.toNat :=
    ⟨BitVec.toNat_setWidth_of_le (by decide), BitVec.toNat_setWidth_of_le (by decide),
      BitVec.toNat_setWidth_of_le (by decide)⟩
  obtain ⟨hlow, hmid, hhigh⟩ := hwidth
  have hlower : (e.offsetLow.setWidth 64 ||| e.offsetMid.setWidth 64 <<< 16).toNat
      = e.offsetLow.toNat + 2 ^ 16 * e.offsetMid.toNat := by
    rw [toNat_or_shiftLeft (by omega) (by omega), hlow, hmid]
  rw [offset, toNat_or_shiftLeft (by omega) (by omega), hlower, hhigh]

theorem gateIn_eq {e : IdtEntry} (h : m.Holds a e.bytes) : gateIn m a =
    if e.typeAttr.getLsbD 7 ∧ e.typeAttr.extractLsb' 0 5 ∈ [0xE#5, 0xF#5] then
      some ⟨e.offset, e.selector, e.ist.extractLsb' 0 3, e.typeAttr.getLsbD 0,
        e.typeAttr.extractLsb' 5 2⟩
    else none := by
  simp only [bytes, holds_append, length_toLeBytes, BitVec.add_assoc] at h
  obtain ⟨hlow, hselector, hist, hattr, hmid, hhigh, -⟩ := h
  have hist : m (a + 4) = e.ist := hist.byte
  have hattr : m (a + 5) = e.typeAttr := hattr.byte
  have hlow : m.num 2 a = e.offsetLow.toNat := hlow.num_eq.trans (Nat.mod_eq_of_lt (by omega))
  have hselector : m.num 2 (a + 2) = e.selector.toNat :=
    hselector.num_eq.trans (Nat.mod_eq_of_lt (by omega))
  have hmid : m.num 2 (a + 6) = e.offsetMid.toNat :=
    hmid.num_eq.trans (Nat.mod_eq_of_lt (by omega))
  have hhigh : m.num 4 (a + 8) = e.offsetHigh.toNat :=
    hhigh.num_eq.trans (Nat.mod_eq_of_lt (by omega))
  rw [gateIn, hist, hattr, hlow, hselector, hmid, hhigh, ← offset_toNat, BitVec.ofNat_toNat,
    BitVec.ofNat_toNat, BitVec.setWidth_eq, BitVec.setWidth_eq]

/-- An entry that was never set is no gate. -/
theorem gateIn_missing (h : m.Holds a missing.bytes) : gateIn m a = none := by
  rw [gateIn_eq h]
  rfl

/-- The gate that `new` is asked for. -/
def gateOf (handler : Word) (selector : BitVec 16) (ist gate dpl : BitVec 8) : Option Gate :=
  if gate.extractLsb' 0 4 ∈ [0xE#4, 0xF#4] then
    some ⟨handler, selector, ist.extractLsb' 0 3, gate.getLsbD 0, dpl.extractLsb' 0 2⟩
  else none

variable (handler : Word) (selector : BitVec 16) (ist gate dpl : BitVec 8)

theorem offset_new : (new handler selector ist gate dpl).offset = handler := by
  have hmask16 : (0xFFFF : Word).toNat = 2 ^ 16 - 1 := rfl
  have hmask32 : (0xFFFFFFFF : Word).toNat = 2 ^ 32 - 1 := rfl
  apply BitVec.eq_of_toNat_eq
  rw [offset_toNat]
  simp only [new, BitVec.toNat_setWidth, BitVec.toNat_and, BitVec.toNat_ushiftRight, hmask16,
    hmask32, Nat.and_two_pow_sub_one_eq_mod, Nat.shiftRight_eq_div_pow]
  omega

/-- The attribute byte has the present bit, the type, and the level. -/
theorem typeAttr_new :
    let attr := (new handler selector ist gate dpl).typeAttr
    attr.getLsbD 7 ∧ attr.extractLsb' 0 5 = (gate.extractLsb' 0 4).setWidth 5 ∧
      attr.getLsbD 0 = gate.getLsbD 0 ∧ attr.extractLsb' 5 2 = dpl.extractLsb' 0 2 := by
  -- each slice of the byte comes from one argument
  have hlevel : ∀ x : BitVec 8, ((x &&& 0x3) <<< 5).extractLsb' 0 5 = 0 ∧
      ((x &&& 0x3) <<< 5).extractLsb' 5 2 = x.extractLsb' 0 2 := by decide
  have hkind : ∀ x : BitVec 8, (x &&& 0xF).extractLsb' 0 5 = (x.extractLsb' 0 4).setWidth 5 ∧
      (x &&& 0xF).extractLsb' 5 2 = 0 := by decide
  refine ⟨by simp [new], ?_, by simp [new], ?_⟩
  · rw [new, BitVec.extractLsb'_or, BitVec.extractLsb'_or, (hlevel dpl).1, (hkind gate).1]
    simp
  · rw [new, BitVec.extractLsb'_or, BitVec.extractLsb'_or, (hlevel dpl).2, (hkind gate).2]
    simp

/-- **An entry is read as what was asked for.** -/
theorem gateIn_new (h : m.Holds a (new handler selector ist gate dpl).bytes) :
    gateIn m a = gateOf handler selector ist gate dpl := by
  obtain ⟨hpresent, htype, htrap, hdpl⟩ := typeAttr_new handler selector ist gate dpl
  have hist : (new handler selector ist gate dpl).ist.extractLsb' 0 3 = ist.extractLsb' 0 3 := by
    have hmask : ∀ x : BitVec 8, (x &&& 0x7).extractLsb' 0 3 = x.extractLsb' 0 3 := by decide
    exact hmask ist
  have hgate : (gate.extractLsb' 0 4).setWidth 5 ∈ [0xE#5, 0xF#5]
      ↔ gate.extractLsb' 0 4 ∈ [0xE#4, 0xF#4] := by
    generalize gate.extractLsb' 0 4 = t
    revert t
    decide
  rw [gateIn_eq h, offset_new, hist, htype, htrap, hdpl, gateOf]
  simp only [hpresent, hgate, true_and]
  rfl

end IdtEntry

/-! ## The task segment -/

/-- Words one after the other. -/
def wordBytes (l : List Word) : List (BitVec 8) := l.flatMap fun w ↦ toLeBytes 8 w.toNat

theorem length_wordBytes (l : List Word) : (wordBytes l).length = 8 * l.length :=
  length_flatMap_of (fun _ ↦ length_toLeBytes ..) l

theorem read_wordBytes {l : List Word} {i : ℕ} (h : m.Holds a (wordBytes l)) (hi : i < l.length) :
    m.read (a + BitVec.ofNat 64 (8 * i)) = l[i] :=
  (h.flatMap (fun _ ↦ length_toLeBytes ..) hi).read_eq

structure TaskStateSegment where
  reserved0 : BitVec 32
  /-- The first one is `rsp0`. -/
  privilegeStacks : Vector Word 3
  reserved1 : Word
  interruptStacks : Vector Word 7
  reserved2 : Word
  reserved3 : BitVec 16
  iomapBase : BitVec 16

namespace TaskStateSegment

/-- `size_of::<TaskStateSegment>()` -/
def size : ℕ := 104

def new : TaskStateSegment where
  reserved0 := 0
  privilegeStacks := Vector.replicate 3 0
  reserved1 := 0
  interruptStacks := Vector.replicate 7 0
  reserved2 := 0
  reserved3 := 0
  iomapBase := BitVec.ofNat 16 size

variable (t : TaskStateSegment)

def setKernelStack (rsp0 : Word) : TaskStateSegment :=
  { t with privilegeStacks := t.privilegeStacks.set 0 rsp0 }

def setIst (index : ℕ) (stackTop : Word) : Except Panic TaskStateSegment :=
  if h : index < 7 then .ok { t with interruptStacks := t.interruptStacks.set index stackTop }
  else .error .indexOutOfBounds

/-- The bytes of the segment. -/
def bytes : List (BitVec 8) :=
  toLeBytes 4 t.reserved0.toNat ++ (wordBytes t.privilegeStacks.toList ++
    (toLeBytes 8 t.reserved1.toNat ++ (wordBytes t.interruptStacks.toList ++
      (toLeBytes 8 t.reserved2.toNat ++ (toLeBytes 2 t.reserved3.toNat ++
        toLeBytes 2 t.iomapBase.toNat)))))

@[simp] theorem length_bytes : t.bytes.length = size := by
  simp [bytes, length_wordBytes, size]

variable {t}

theorem read_kernelStack (h : m.Holds a t.bytes) :
    m.read (a + BitVec.ofNat 64 4) = t.privilegeStacks[0] := by
  rw [bytes, holds_append, holds_append, length_toLeBytes] at h
  have hread := read_wordBytes h.2.1 (i := 0) (by simp)
  rw [Nat.mul_zero, BitVec.add_zero] at hread
  simpa using hread

theorem read_ist (h : m.Holds a t.bytes) {i : ℕ} (hi : i < 7) :
    m.read (a + BitVec.ofNat 64 (36 + 8 * i)) = t.interruptStacks[i] := by
  simp only [bytes, holds_append, length_toLeBytes, length_wordBytes, Vector.length_toList] at h
  have hread := read_wordBytes h.2.2.2.1 (i := i) (by simpa using hi)
  have haddr : a + BitVec.ofNat 64 4 + BitVec.ofNat 64 (8 * 3) + BitVec.ofNat 64 8
      + BitVec.ofNat 64 (8 * i) = a + BitVec.ofNat 64 (36 + 8 * i) := by bv_omega
  rw [haddr] at hread
  simpa using hread

end TaskStateSegment

/-! ## The global table -/

def kernelCode : BitVec 16 := 0x08

def kernelData : BitVec 16 := 0x10

def userData : BitVec 16 := 0x18 ||| 3

def userCode : BitVec 16 := 0x20 ||| 3

def tssSelector : BitVec 16 := 0x28

namespace SegmentDescriptor

def accessPresent : Word := 1 <<< 7

def accessDpl3 : Word := 3 <<< 5

def accessType : Word := 1 <<< 4

def accessExec : Word := 1 <<< 3

def accessRw : Word := 1 <<< 1

def flagGranularity : Word := 1 <<< 7

def flagDb : Word := 1 <<< 6

def flagLong : Word := 1 <<< 5

def flat (access flags : Word) : Word :=
  (0xFFFF : Word) ||| access <<< 40 ||| (0xF : Word) <<< 48 ||| flags <<< 48

def null : Word := 0

def kernelCode : Word :=
  flat (accessPresent ||| accessType ||| accessExec ||| accessRw) (flagGranularity ||| flagLong)

def kernelData : Word :=
  flat (accessPresent ||| accessType ||| accessRw) (flagGranularity ||| flagDb)

def userCode : Word :=
  flat (accessPresent ||| accessDpl3 ||| accessType ||| accessExec ||| accessRw)
    (flagGranularity ||| flagLong)

def userData : Word :=
  flat (accessPresent ||| accessDpl3 ||| accessType ||| accessRw) (flagGranularity ||| flagDb)

end SegmentDescriptor

structure TssDescriptor where
  low : Word
  high : Word

namespace TssDescriptor

def typeTssAvail : Word := 0x9

def new (base : Word) (limit : BitVec 32) : TssDescriptor :=
  let limit := limit.setWidth 64
  { low := limit &&& 0xFFFF ||| (base &&& 0xFFFFFF) <<< 16 ||| typeTssAvail <<< 40
      ||| SegmentDescriptor.accessPresent <<< 40 ||| (limit >>> 16 &&& 0xF) <<< 48
      ||| (base >>> 24 &&& 0xFF) <<< 56
    high := base >>> 32 &&& 0xFFFFFFFF }

theorem low_toNat (base : Word) (limit : BitVec 32) : (new base limit).low.toNat
    = limit.toNat % 2 ^ 16 + 2 ^ 16 * (base.toNat % 2 ^ 24) + 2 ^ 40 * 0x89
      + 2 ^ 48 * (limit.toNat / 2 ^ 16 % 2 ^ 4) + 2 ^ 56 * (base.toNat / 2 ^ 24 % 2 ^ 8) := by
  have hwidth : (limit.setWidth 64).toNat = limit.toNat := BitVec.toNat_setWidth_of_le (by decide)
  -- the fields, from the lowest up
  have hlimit : (limit.setWidth 64 &&& 0xFFFF#64).toNat = limit.toNat % 2 ^ 16 := by
    rw [toNat_and_mask _ _ (k := 16) rfl, hwidth]
  have hbase : (base &&& 0xFFFFFF#64).toNat = base.toNat % 2 ^ 24 := toNat_and_mask _ _ rfl
  have haccess : (0x89#64).toNat = 0x89 := rfl
  have hlimit' : (limit.setWidth 64 >>> 16 &&& 0xF#64).toNat = limit.toNat / 2 ^ 16 % 2 ^ 4 := by
    rw [toNat_and_mask _ _ (k := 4) rfl, BitVec.toNat_ushiftRight, hwidth,
      Nat.shiftRight_eq_div_pow]
  have hbase' : (base >>> 24 &&& 0xFF#64).toNat = base.toNat / 2 ^ 24 % 2 ^ 8 := by
    rw [toNat_and_mask _ _ (k := 8) rfl, BitVec.toNat_ushiftRight, Nat.shiftRight_eq_div_pow]
  have htype : typeTssAvail <<< 40 ||| SegmentDescriptor.accessPresent <<< 40
      = 0x89#64 <<< 40 := by decide
  have h₁ := toNat_or_shiftLeft (x := limit.setWidth 64 &&& 0xFFFF#64) (y := base &&& 0xFFFFFF#64)
    (i := 16) (by omega) (by omega)
  have h₂ := toNat_or_shiftLeft (y := 0x89#64) (i := 40)
    (x := limit.setWidth 64 &&& 0xFFFF#64 ||| (base &&& 0xFFFFFF#64) <<< 16) (by omega) (by omega)
  rw [← htype, ← BitVec.or_assoc] at h₂
  have h₃ := toNat_or_shiftLeft (y := limit.setWidth 64 >>> 16 &&& 0xF#64) (i := 48)
    (x := limit.setWidth 64 &&& 0xFFFF#64 ||| (base &&& 0xFFFFFF#64) <<< 16 ||| typeTssAvail <<< 40
      ||| SegmentDescriptor.accessPresent <<< 40) (by omega) (by omega)
  have h₄ := toNat_or_shiftLeft (y := base >>> 24 &&& 0xFF#64) (i := 56)
    (x := limit.setWidth 64 &&& 0xFFFF#64 ||| (base &&& 0xFFFFFF#64) <<< 16 ||| typeTssAvail <<< 40
      ||| SegmentDescriptor.accessPresent <<< 40
      ||| (limit.setWidth 64 >>> 16 &&& 0xF#64) <<< 48) (by omega) (by omega)
  refine h₄.trans ?_
  omega

theorem high_toNat (base : Word) (limit : BitVec 32) :
    (new base limit).high.toNat = base.toNat / 2 ^ 32 := by
  rw [new, toNat_and_mask _ 0xFFFFFFFF (k := 32) rfl, BitVec.toNat_ushiftRight,
    Nat.shiftRight_eq_div_pow]
  omega

/-- The fields of the lower half, one above the other. -/
private theorem low_fields {l b h t : ℕ} (hl : l < 2 ^ 16) (hb : b < 2 ^ 24) (hh : h < 2 ^ 4)
    (ht : t < 2 ^ 8) {w : ℕ} (hw : w = l + 2 ^ 16 * b + 2 ^ 40 * 0x89 + 2 ^ 48 * h + 2 ^ 56 * t) :
    w % 2 ^ 16 = l ∧ w / 2 ^ 16 % 2 ^ 24 = b ∧ w / 2 ^ 40 % 2 ^ 8 = 0x89 ∧ w / 2 ^ 48 % 2 ^ 4 = h ∧
      w / 2 ^ 52 % 2 ^ 4 = 0 ∧ w / 2 ^ 56 % 2 ^ 8 = t := by
  refine ⟨?_, ?_, ?_, ?_, ?_, ?_⟩ <;> omega

/-- **The processor finds the segment at the base it was built for**, with its limit, as an
available task segment. -/
theorem read_new (base : Word) {limit : BitVec 32} (hlimit : limit.toNat < 2 ^ 20) :
    let d := new base limit
    Segment.base d.low d.high = base ∧ Segment.limit d.low = limit.toNat ∧
      Segment.present d.low ∧ ¬Segment.codeOrData d.low ∧ Segment.type d.low = 0x9 := by
  intro d
  have hhigh : d.high.toNat = _ := high_toNat base limit
  obtain ⟨hlimit₀, hbase₀, haccess, hlimit₁, hflags, hbase₁⟩ := low_fields
    (Nat.mod_lt _ (by decide)) (Nat.mod_lt _ (by decide)) (Nat.mod_lt _ (by decide))
    (Nat.mod_lt _ (by decide)) (w := d.low.toNat) (low_toNat base limit)
  have hslice : ∀ i k, (d.low.extractLsb' i k).toNat = d.low.toNat / 2 ^ i % 2 ^ k := fun i k ↦ by
    rw [BitVec.extractLsb'_toNat, Nat.shiftRight_eq_div_pow]
  have hbit : ∀ i, d.low.getLsbD i = decide (d.low.toNat / 2 ^ i % 2 = 1) := fun i ↦ by
    rw [BitVec.getLsbD, Nat.testBit_eq_decide_div_mod_eq]
  refine ⟨?_, ?_, ?_, ?_, ?_⟩
  · apply BitVec.eq_of_toNat_eq
    rw [Segment.base, toNat_append, toNat_append, hslice, hslice, hbase₀, hbase₁,
      BitVec.extractLsb'_toNat, hhigh, Nat.shiftRight_zero]
    have hupper : base.toNat / 2 ^ 24 / 2 ^ 8 = base.toNat / 2 ^ 32 := Nat.div_div_eq_div_mul ..
    have hbound : base.toNat / 2 ^ 32 < 2 ^ 32 := by omega
    rw [Nat.mod_eq_of_lt hbound, ← hupper]
    omega
  · have hgranular : Segment.granular d.low = false := by
      rw [Segment.granular, hbit]
      simp; omega
    rw [Segment.limit, hgranular, toNat_append, hslice, hslice, hlimit₁]
    simp; omega
  · rw [Segment.present, hbit]
    simp; omega
  · rw [Segment.codeOrData, hbit]
    simp; omega
  · apply BitVec.eq_of_toNat_eq
    rw [Segment.type, hslice]
    simp; omega

end TssDescriptor

end Zeroxos
