import Zeroxos.Kernel.DescriptorTables
import Zeroxos.Library.FastCall
import Zeroxos.Library.Transition

/-!
# Interrupts after boot

`init` of `arch/x86_64/mod.rs` writes the tables and points the processor at them; after it, code
changes a gate, the kernel stack or one of the seven other stacks now and then, and the processor
reads the tables whenever an interrupt comes. Between what is written, field by field into packed
structures, and what is read, there is only memory.

## The two sides

The abstract side is `Vectors`: what gate each vector was last given, and what stacks were last set.
The state of the system keeps it beside the bytes, and an interrupt is taken as it says
(`delivery_refines`). `Told` relates the two: the bytes of each table are in memory where its
register points, and each gate, read by the processor, is the one that was asked for.

## Calls

A call rewrites the bytes of the whole table it belongs to, so that one frame argument does for all
of them: the three tables are apart (`TableAddrs.Disjoint`), and other code stores elsewhere. A call
with an index out of bounds panics, and is the only kind that does.
-/

namespace Zeroxos

open ByteMem

/-! ## The tables -/

structure Gdt where
  entries : Vector Word 7
  len : ℕ

namespace Gdt

/-- `Gdt::new`, of a task segment at `tss`. -/
def new (tss : Word) : Gdt :=
  let tssDesc := TssDescriptor.new tss (BitVec.ofNat 32 (TaskStateSegment.size - 1))
  { entries := #v[SegmentDescriptor.null, SegmentDescriptor.kernelCode,
      SegmentDescriptor.kernelData, SegmentDescriptor.userData, SegmentDescriptor.userCode,
      tssDesc.low, tssDesc.high]
    len := 7 }

/-- `Gdt::pointer`, of a table at `base`. -/
def pointer (g : Gdt) (base : Word) : TableReg := ⟨base, BitVec.ofNat 16 (g.len * 8 - 1)⟩

/-- The bytes of the table. -/
def bytes (g : Gdt) : List (BitVec 8) := wordBytes g.entries.toList ++ toLeBytes 8 g.len

@[simp] theorem length_bytes (g : Gdt) : g.bytes.length = 64 := by
  simp [bytes, length_wordBytes]

end Gdt

structure Idt where
  entries : Vector IdtEntry 256

namespace Idt

def new : Idt := ⟨Vector.replicate 256 .missing⟩

def setHandler (idt : Idt) (vector : ℕ) (entry : IdtEntry) : Except Panic Idt :=
  if h : vector < 256 then .ok ⟨idt.entries.set vector entry⟩ else .error .indexOutOfBounds

/-- `Idt::pointer`, of a table at `base`. -/
def pointer (base : Word) : TableReg := ⟨base, BitVec.ofNat 16 (256 * 16 - 1)⟩

/-- The gate of an exception. -/
def exceptionEntry (handler : Word) : IdtEntry := .new handler kernelCode 0 gateInterrupt 0

/-- The loop of `install_exceptions`, from the vector `vec` on. -/
def installFrom : List Word → ℕ → Idt → Except Panic Idt
  | [], _, idt => .ok idt
  | handler :: handlers, vec, idt => do
    installFrom handlers (vec + 1) (← idt.setHandler vec (exceptionEntry handler))

/-- `Idt::install_exceptions`, with the addresses of the stubs. -/
def installExceptions (stubs : Vector Word 32) (idt : Idt) : Except Panic Idt :=
  installFrom stubs.toList 0 idt

/-- The bytes of the table. -/
def bytes (idt : Idt) : List (BitVec 8) := idt.entries.toList.flatMap IdtEntry.bytes

@[simp] theorem length_bytes (idt : Idt) : idt.bytes.length = 4096 := by
  rw [bytes, length_flatMap_of IdtEntry.length_bytes, Vector.length_toList]

theorem installFrom_ok {handlers : List Word} {vec : ℕ} (idt : Idt)
    (h : vec + handlers.length ≤ 256) : ∃ idt', installFrom handlers vec idt = .ok idt' ∧
      (∀ (k : ℕ) (hk : k < handlers.length) (_ : vec + k < 256),
        idt'.entries[vec + k] = exceptionEntry handlers[k]) ∧
      ∀ (v : ℕ) (_ : v < 256), v < vec ∨ vec + handlers.length ≤ v →
        idt'.entries[v] = idt.entries[v] := by
  induction handlers generalizing vec idt with
  | nil => exact ⟨idt, rfl, fun k hk ↦ absurd hk (Nat.not_lt_zero k), fun _ _ _ ↦ rfl⟩
  | cons handler handlers ih =>
    rw [List.length_cons] at h
    have hrest : vec + 1 + handlers.length ≤ 256 := by omega
    obtain ⟨idt', hinstall, hset, hkept⟩ := ih
      ⟨idt.entries.set vec (exceptionEntry handler) (by omega)⟩ hrest
    refine ⟨idt', ?_, fun k hk hv ↦ ?_, fun v hv hout ↦ ?_⟩
    · rw [installFrom, setHandler, dif_pos (by omega)]
      exact hinstall
    · cases k with
      | zero => exact (hkept vec hv (.inl (Nat.lt_succ_self vec))).trans (Vector.getElem_set_self _)
      | succ k =>
        have hindex : vec + (k + 1) = vec + 1 + k := by omega
        simp only [hindex, List.getElem_cons_succ]
        exact hset k (Nat.lt_of_succ_lt_succ hk) (by omega)
    · rw [List.length_cons] at hout
      exact (hkept v hv (by omega)).trans
        (Vector.getElem_set_ne (by omega) hv (by omega))

end Idt

/-! ## Boot -/

def eferSce : Word := 1 <<< 0

def eferNxe : Word := 1 <<< 11

def rflagsIf : Word := 1 <<< 9

def rflagsDf : Word := 1 <<< 10

def starSysretBase : BitVec 16 := kernelData

def starSyscallBase : BitVec 16 := kernelCode

/-- `rdmsr` of `syscall.rs` -/
def readMsr (m : Msrs) (msr : BitVec 32) : Word :=
  let (lo, hi) := m.rdmsr msr
  hi.setWidth 64 <<< 32 ||| lo.setWidth 64

/-- `wrmsr` of `syscall.rs` -/
def writeMsr (m : Msrs) (msr : BitVec 32) (value : Word) : Msrs :=
  m.wrmsr msr (value.setWidth 32) ((value >>> 32).setWidth 32)

/-- `init_syscalls`, with `syscall_entry` at `entry`. -/
def initSyscalls (entry : Word) (m : Msrs) : Msrs :=
  let m := writeMsr m Msrs.efer (readMsr m Msrs.efer ||| eferSce ||| eferNxe)
  let star := starSysretBase.setWidth 64 <<< 48 ||| starSyscallBase.setWidth 64 <<< 32
  let m := writeMsr m Msrs.star star
  let m := writeMsr m Msrs.lstar entry
  writeMsr m Msrs.fmask (rflagsIf ||| rflagsDf)

/-- The addresses of the statics `TSS`, `IDT` and `GDT`. -/
structure TableAddrs where
  tss : Word
  idt : Word
  gdt : Word

/-- The statics do not overlap. -/
structure TableAddrs.Disjoint (addrs : TableAddrs) : Prop where
  tss_idt : Apart addrs.tss TaskStateSegment.size addrs.idt 4096
  tss_gdt : Apart addrs.tss TaskStateSegment.size addrs.gdt 64
  idt_gdt : Apart addrs.idt 4096 addrs.gdt 64

/-- The statics, memory, and the registers that `init` sets. -/
structure ArchState where
  tss : TaskStateSegment
  idt : Idt
  gdt : Option Gdt
  mem : ByteMem
  regs : TableRegs
  cs : BitVec 16
  /-- `DS`, `ES`, `SS`, `FS` and `GS` -/
  data : BitVec 16
  msrs : Msrs

namespace ArchState

variable (addrs : TableAddrs) (s : ArchState)

/-- A new value of `TSS`, which is where the linker put it. -/
def storeTss (tss : TaskStateSegment) : ArchState :=
  { s with tss := tss, mem := s.mem.writeBytes addrs.tss tss.bytes }

/-- A new value of `IDT` -/
def storeIdt (idt : Idt) : ArchState :=
  { s with idt := idt, mem := s.mem.writeBytes addrs.idt idt.bytes }

/-- A new value of `GDT` -/
def storeGdt (gdt : Gdt) : ArchState :=
  { s with gdt := some gdt, mem := s.mem.writeBytes addrs.gdt gdt.bytes }

/-- `Gdt::load`, with `reload_segments`. The processor writes the descriptor of the task segment
back, marked busy. -/
def loadGdt (gdt : Gdt) : Option ArchState := do
  let gdtr := gdt.pointer addrs.gdt
  let data ← loadData gdtr s.mem kernelData
  let cs ← farReturn gdtr s.mem kernelCode
  let (task, low) ← loadTask gdtr s.mem tssSelector
  return { s.storeGdt addrs { gdt with entries := gdt.entries.set 5 low } with
    regs := { s.regs with gdtr := gdtr, task := task }
    cs := cs
    data := data }

/-- `init`, with the addresses of the stubs and of `syscall_entry`. -/
def init (stubs : Vector Word 32) (entry : Word) : Option ArchState := do
  let idt ← (s.idt.installExceptions stubs).toOption
  let s := s.storeIdt addrs idt
  let s := { s with regs := { s.regs with idtr := Idt.pointer addrs.idt } }
  let gdt := Gdt.new addrs.tss
  let s ← (s.storeGdt addrs gdt).loadGdt addrs gdt
  return { s with msrs := initSyscalls entry s.msrs }

/-- Memory has the statics. -/
structure Written : Prop where
  tss : s.mem.Holds addrs.tss s.tss.bytes
  idt : s.mem.Holds addrs.idt s.idt.bytes
  gdt : ∀ gdt ∈ s.gdt, s.mem.Holds addrs.gdt gdt.bytes

variable {addrs s}

theorem Written.storeTss (hdisj : addrs.Disjoint) (h : s.Written addrs) (tss : TaskStateSegment) :
    (s.storeTss addrs tss).Written addrs where
  tss := holds_writeBytes _ _ (by simp [TaskStateSegment.size])
  idt := h.idt.writeBytes (by simp) (by simpa using hdisj.tss_idt.symm)
  gdt gdt hgdt := (h.gdt gdt hgdt).writeBytes (by simp) (by simpa using hdisj.tss_gdt.symm)

theorem Written.storeIdt (hdisj : addrs.Disjoint) (h : s.Written addrs) (idt : Idt) :
    (s.storeIdt addrs idt).Written addrs where
  tss := h.tss.writeBytes (by simp [TaskStateSegment.size]) (by simpa using hdisj.tss_idt)
  idt := holds_writeBytes _ _ (by simp)
  gdt gdt hgdt := (h.gdt gdt hgdt).writeBytes (by simp) (by simpa using hdisj.idt_gdt.symm)

theorem Written.storeGdt (hdisj : addrs.Disjoint) (h : s.Written addrs) (gdt : Gdt) :
    (s.storeGdt addrs gdt).Written addrs where
  tss := h.tss.writeBytes (by simp [TaskStateSegment.size]) (by simpa using hdisj.tss_gdt)
  idt := h.idt.writeBytes (by simp) (by simpa using hdisj.idt_gdt)
  gdt gdt' hgdt := by
    obtain rfl : gdt = gdt' := Option.some.inj hgdt
    exact holds_writeBytes _ _ (by simp)

end ArchState

/-! ### What the processor finds -/

variable {m : ByteMem} {a : Word}

theorem descriptorAt_eq {g : Gdt} (h : m.Holds a g.bytes) (selector : BitVec 16) :
    descriptorAt ⟨a, BitVec.ofNat 16 55⟩ m selector =
      if h : ¬selector.getLsbD 2 ∧ selector.toNat / 8 ≠ 0 ∧ selector.toNat / 8 < 7 then
        some g.entries[selector.toNat / 8]
      else none := by
  have hlimit : (BitVec.ofNat 16 55).toNat = 55 := rfl
  have hcond : (¬selector.getLsbD 2 ∧ 8 * (selector.toNat / 8) ≠ 0 ∧
      8 * (selector.toNat / 8) + 7 ≤ (BitVec.ofNat 16 55).toNat) ↔
      (¬selector.getLsbD 2 ∧ selector.toNat / 8 ≠ 0 ∧ selector.toNat / 8 < 7) := by
    refine and_congr_right fun _ ↦ ?_
    omega
  rw [descriptorAt]
  simp only [hcond]
  split_ifs with hin
  · rw [Gdt.bytes, holds_append] at h
    rw [read_wordBytes h.1 (by simpa using hin.2.2), Vector.getElem_toList]
  · rfl

/-- The table once `ltr` has marked the task segment. -/
def Gdt.loaded (tss : Word) : Gdt :=
  let low := (TssDescriptor.new tss (BitVec.ofNat 32 (TaskStateSegment.size - 1))).low
  { Gdt.new tss with entries := (Gdt.new tss).entries.set 5 (low ||| 1 <<< 41) }

theorem loadTask_new {tss : Word} (h : m.Holds a (Gdt.new tss).bytes) :
    loadTask ⟨a, BitVec.ofNat 16 55⟩ m tssSelector = some (⟨tss, TaskStateSegment.size - 1⟩,
      (TssDescriptor.new tss (BitVec.ofNat 32 (TaskStateSegment.size - 1))).low ||| 1 <<< 41) := by
  have hsmall : (BitVec.ofNat 32 (TaskStateSegment.size - 1)).toNat < 2 ^ 20 := by decide
  obtain ⟨hbase, hlimit, hpresent, hsystem, htype⟩ := TssDescriptor.read_new tss hsmall
  have hhigh : m.read (a + BitVec.ofNat 64 48)
      = (TssDescriptor.new tss (BitVec.ofNat 32 (TaskStateSegment.size - 1))).high := by
    rw [Gdt.bytes, holds_append] at h
    exact read_wordBytes h.1 (i := 6) (by simp)
  have hlow : descriptorAt ⟨a, BitVec.ofNat 16 55⟩ m tssSelector
      = some (TssDescriptor.new tss (BitVec.ofNat 32 (TaskStateSegment.size - 1))).low := by
    rw [descriptorAt_eq h, dif_pos (by decide)]
    rfl
  have hin : 8 * (tssSelector.toNat / 8) + 15 ≤ (BitVec.ofNat 16 55).toNat := by decide
  rw [loadTask_of hlow hin ⟨hpresent, hsystem, htype⟩]
  have hread : m.read (a + BitVec.ofNat 64 (8 * (tssSelector.toNat / 8) + 8)) = _ := hhigh
  dsimp only
  rw [hread, hbase, hlimit]
  rfl

theorem loadSegments_new {tss : Word} (h : m.Holds a (Gdt.new tss).bytes) :
    loadData ⟨a, BitVec.ofNat 16 55⟩ m kernelData = some kernelData ∧
      farReturn ⟨a, BitVec.ofNat 16 55⟩ m kernelCode = some kernelCode := by
  constructor
  · refine loadData_of (d := SegmentDescriptor.kernelData) ?_ (by decide)
    rw [descriptorAt_eq h, dif_pos (by decide)]
    rfl
  · refine farReturn_of (d := SegmentDescriptor.kernelCode) ?_ (by decide)
    rw [descriptorAt_eq h, dif_pos (by decide)]
    rfl

/-! ## What the tables were told -/

/-- The gate that each vector was last given, and the stacks that were last set. -/
structure Vectors where
  gate : ℕ → Option Gate
  kernelStack : Word
  ist : ℕ → Word

/-- The level of the code that a selector names: the kernel's, or that of user code. -/
def codeLevel (selector : BitVec 16) : Option (BitVec 2) :=
  if selector.toNat / 4 = 2 then some 0 else if selector.toNat / 4 = 8 then some 3 else none

namespace Vectors

variable (v : Vectors)

/-- The stack that a gate leads to. -/
def stack (gate : Gate) (cpl level : BitVec 2) (rsp : Word) : Word :=
  if gate.ist ≠ 0 then v.ist (gate.ist.toNat - 1)
  else if level < cpl then v.kernelStack
  else rsp

/-- How an interrupt is to be taken. -/
def deliver (vector : BitVec 8) (software : Bool) (cpl : BitVec 2) (rsp : Word) :
    Option Arrival := do
  let gate ← v.gate vector.toNat
  let level ← codeLevel gate.selector
  if (software → cpl ≤ gate.dpl) ∧ level ≤ cpl then
    some {
      rip := gate.handler
      cs := gate.selector.extractLsb' 2 14 ++ level
      cpl := level
      rsp := alignStack (v.stack gate cpl level rsp)
      masked := !gate.trap }
  else none

end Vectors

/-- **The tables say what they were told.** -/
structure Told (addrs : TableAddrs) (s : ArchState) (v : Vectors) : Prop where
  written : s.Written addrs
  gdt_eq : s.gdt = some (Gdt.loaded addrs.tss)
  regs_eq : s.regs = ⟨Idt.pointer addrs.idt, ⟨addrs.gdt, BitVec.ofNat 16 55⟩,
    ⟨addrs.tss, TaskStateSegment.size - 1⟩⟩
  gates : ∀ (vec : ℕ) (_ : vec < 256) (m : ByteMem) (a : Word),
    m.Holds a s.idt.entries[vec].bytes → gateIn m a = v.gate vec
  kernelStack : s.tss.privilegeStacks.head = v.kernelStack
  ist : ∀ (i : ℕ) (_ : i < 7), s.tss.interruptStacks[i] = v.ist i

theorem loaded_isCode {tss : Word} {i : ℕ} (hi : i < 7) :
    (i = 1 → (Gdt.loaded tss).entries[i] = SegmentDescriptor.kernelCode) ∧
    (i = 4 → (Gdt.loaded tss).entries[i] = SegmentDescriptor.userCode) ∧
    (i ≠ 1 → i ≠ 4 → ¬Segment.IsCode (Gdt.loaded tss).entries[i]) := by
  refine ⟨by rintro rfl; rfl, by rintro rfl; rfl, fun h1 h4 ↦ ?_⟩
  have hcases : i = 0 ∨ i = 2 ∨ i = 3 ∨ i = 5 ∨ i = 6 := by omega
  rcases hcases with rfl | rfl | rfl | rfl | rfl
  · exact (by decide : ¬Segment.IsCode SegmentDescriptor.null)
  · exact (by decide : ¬Segment.IsCode SegmentDescriptor.kernelData)
  · exact (by decide : ¬Segment.IsCode SegmentDescriptor.userData)
  · -- the task segment is one of the system's
    have hsmall : (BitVec.ofNat 32 (TaskStateSegment.size - 1)).toNat < 2 ^ 20 := by decide
    obtain ⟨-, -, -, hsystem, -⟩ := TssDescriptor.read_new tss hsmall
    rintro ⟨-, hcode, -⟩
    have hbusy : (1 <<< 41 : Word).getLsbD 44 = false := by decide
    rw [Segment.codeOrData] at hsystem
    have hbit : Segment.codeOrData ((TssDescriptor.new tss
      (BitVec.ofNat 32 (TaskStateSegment.size - 1))).low ||| 1 <<< 41) = true := hcode
    rw [Segment.codeOrData, BitVec.getLsbD_or, hbusy, Bool.or_false] at hbit
    exact hsystem hbit
  · -- its upper half is too small to be present
    rintro ⟨hpresent, -⟩
    have hsmall := TssDescriptor.high_toNat tss (BitVec.ofNat 32 (TaskStateSegment.size - 1))
    have hbit : (TssDescriptor.new tss
        (BitVec.ofNat 32 (TaskStateSegment.size - 1))).high.getLsbD 47 = true := hpresent
    rw [BitVec.getLsbD, Nat.testBit_lt_two_pow (by omega)] at hbit
    cases hbit

theorem codeLevel_cases {m : ByteMem} {a tss : Word} (h : m.Holds a (Gdt.loaded tss).bytes)
    (selector : BitVec 16) :
    (∃ d, codeLevel selector = some (Segment.dpl d) ∧
      descriptorAt ⟨a, BitVec.ofNat 16 55⟩ m selector = some d ∧ Segment.IsCode d ∧
        ¬Segment.conforming d ∧ (Segment.dpl d = 0 ∨ Segment.dpl d = 3)) ∨
    codeLevel selector = none ∧ ∀ d, descriptorAt ⟨a, BitVec.ofNat 16 55⟩ m selector = some d →
      ¬Segment.IsCode d := by
  have hbit : selector.getLsbD 2 ↔ selector.toNat / 4 % 2 = 1 := by
    rw [BitVec.getLsbD, Nat.testBit_eq_decide_div_mod_eq, decide_eq_true_iff]
  by_cases hkernel : selector.toNat / 4 = 2
  · have hin : ¬selector.getLsbD 2 ∧ selector.toNat / 8 ≠ 0 ∧ selector.toNat / 8 < 7 :=
      ⟨by rw [hbit, hkernel]; decide, by omega, by omega⟩
    refine .inl ⟨SegmentDescriptor.kernelCode, ?_, ?_, by decide, by decide, by decide⟩
    · rw [codeLevel, if_pos hkernel]
      rfl
    · rw [descriptorAt_eq h, dif_pos hin, (loaded_isCode hin.2.2).1 (by omega)]
  by_cases huser : selector.toNat / 4 = 8
  · have hin : ¬selector.getLsbD 2 ∧ selector.toNat / 8 ≠ 0 ∧ selector.toNat / 8 < 7 :=
      ⟨by rw [hbit, huser]; decide, by omega, by omega⟩
    refine .inl ⟨SegmentDescriptor.userCode, ?_, ?_, by decide, by decide, by decide⟩
    · rw [codeLevel, if_neg hkernel, if_pos huser]
      rfl
    · rw [descriptorAt_eq h, dif_pos hin, (loaded_isCode hin.2.2).2.1 (by omega)]
  · refine .inr ⟨by rw [codeLevel, if_neg hkernel, if_neg huser], fun d hd ↦ ?_⟩
    rw [descriptorAt_eq h] at hd
    split_ifs at hd with hin
    obtain rfl := Option.some.inj hd
    have hlocal : selector.toNat / 4 % 2 ≠ 1 := hbit.not.mp hin.1
    exact (loaded_isCode hin.2.2).2.2 (by omega) (by omega)

namespace Told

variable {addrs : TableAddrs} {s : ArchState} {v : Vectors}

theorem gateAt_eq (h : Told addrs s v) (vector : BitVec 8) :
    gateAt s.regs.idtr s.mem vector = v.gate vector.toNat := by
  have hvec : vector.toNat < 256 := vector.isLt
  have hin : 16 * vector.toNat + 15 ≤ (Idt.pointer addrs.idt).limit.toNat := by
    have hlimit : (Idt.pointer addrs.idt).limit.toNat = 4095 := rfl
    omega
  rw [h.regs_eq, gateAt, if_pos hin]
  refine h.gates _ hvec _ _ ?_
  have hentry := h.written.idt.flatMap IdtEntry.length_bytes (i := vector.toNat) (by simpa)
  rwa [Vector.getElem_toList] at hentry

theorem stack_eq (h : Told addrs s v) (gate : Gate) {cpl level : BitVec 2} (rsp : Word)
    (hlevel : level = 0 ∨ level = 3) : s.regs.task.stack s.mem gate.ist cpl level rsp
      = some (v.stack gate cpl level rsp) := by
  have htss := h.written.tss
  rw [h.regs_eq, TaskReg.stack, Vectors.stack]
  split_ifs with hist hlt
  · have hpos : gate.ist.toNat ≠ 0 := fun h0 ↦ hist (BitVec.eq_of_toNat_eq h0)
    have hi : gate.ist.toNat - 1 < 7 := by omega
    have hin : 36 + 8 * (gate.ist.toNat - 1) + 7 ≤ TaskStateSegment.size - 1 := by
      rw [TaskStateSegment.size]
      omega
    rw [TaskReg.word, if_pos hin]
    exact congrArg some ((TaskStateSegment.read_ist htss hi).trans (h.ist _ hi))
  · -- a level below another is that of the kernel
    obtain rfl : level = 0 := hlevel.resolve_right (by rintro rfl; revert hlt; revert cpl; decide)
    have hin : 4 + 8 * (0 : BitVec 2).toNat + 7 ≤ TaskStateSegment.size - 1 := by decide
    rw [TaskReg.word, if_pos hin]
    exact congrArg some ((TaskStateSegment.read_kernelStack htss).trans h.kernelStack)
  · rfl

/-- An interrupt is taken as the tables were told. -/
theorem deliver_eq (h : Told addrs s v) (vector : BitVec 8) (software : Bool) (cpl : BitVec 2)
    (rsp : Word) :
    s.regs.deliver s.mem vector software cpl rsp = v.deliver vector software cpl rsp := by
  have hgate := h.gateAt_eq vector
  rw [Vectors.deliver]
  cases hv : v.gate vector.toNat with
  | none => exact TableRegs.deliver_of_gate (hgate.trans hv)
  | some gate =>
    have hgdt : s.mem.Holds addrs.gdt (Gdt.loaded addrs.tss).bytes := h.written.gdt _ h.gdt_eq
    have hgdtr : s.regs.gdtr = ⟨addrs.gdt, BitVec.ofNat 16 55⟩ := by rw [h.regs_eq]
    rcases codeLevel_cases hgdt gate.selector with ⟨d, hcode, hd, hisCode, hown, hlevel⟩ |
      ⟨hcode, hnone⟩
    · rw [← hgdtr] at hd
      rw [TableRegs.deliver_of_code (hgate.trans hv) hd hisCode hown
        fun _ ↦ h.stack_eq gate rsp hlevel]
      simp only [Option.bind_eq_bind, Option.bind_some, hcode]
    · rw [← hgdtr] at hnone
      rw [TableRegs.deliver_of_not_code (hgate.trans hv) hnone]
      simp only [Option.bind_eq_bind, Option.bind_some, hcode, Option.bind_none]

end Told

/-! ## The system -/

/-- Before `init`: the statics have their initial values, and are in memory. -/
structure ArchState.Booting (addrs : TableAddrs) (s : ArchState) : Prop where
  tss_eq : s.tss = .new
  idt_eq : s.idt = .new
  gdt_eq : s.gdt = none
  written : s.Written addrs

/-- The statics as an image is loaded, the rest of memory and the registers being anything. -/
def ArchState.loaded (addrs : TableAddrs) (s : ArchState) : ArchState :=
  ({ s with gdt := none }.storeTss addrs .new).storeIdt addrs .new

theorem ArchState.booting_loaded {addrs : TableAddrs} (hdisj : addrs.Disjoint) (s : ArchState) :
    (s.loaded addrs).Booting addrs where
  tss_eq := rfl
  idt_eq := rfl
  gdt_eq := rfl
  written := {
    tss := (holds_writeBytes _ _ (by simp [TaskStateSegment.size])).writeBytes
      (by simp [TaskStateSegment.size]) (by simpa using hdisj.tss_idt)
    idt := holds_writeBytes _ _ (by simp)
    gdt := fun _ hgdt ↦ absurd hgdt (Option.some_ne_none _).symm }

/-- After `init`: the exceptions have their stubs, on the stack in use, and no stack is set. -/
def Vectors.boot (stubs : Vector Word 32) : Vectors where
  gate vec := if h : vec < 32 then some ⟨stubs[vec], kernelCode, 0, false, 0⟩ else none
  kernelStack := 0
  ist _ := 0

theorem gateIn_exceptionEntry {m : ByteMem} {a handler : Word}
    (h : m.Holds a (Idt.exceptionEntry handler).bytes) :
    gateIn m a = some ⟨handler, kernelCode, 0, false, 0⟩ := by
  rw [IdtEntry.gateIn_new _ _ _ _ _ h, IdtEntry.gateOf, if_pos (by decide)]
  rfl

theorem ArchState.loadGdt_new {addrs : TableAddrs} {s : ArchState}
    (h : s.mem.Holds addrs.gdt (Gdt.new addrs.tss).bytes) :
    s.loadGdt addrs (Gdt.new addrs.tss) = some { s.storeGdt addrs (Gdt.loaded addrs.tss) with
      regs := { s.regs with
        gdtr := ⟨addrs.gdt, BitVec.ofNat 16 55⟩
        task := ⟨addrs.tss, TaskStateSegment.size - 1⟩ }
      cs := kernelCode
      data := kernelData } := by
  obtain ⟨hdata, hcs⟩ := loadSegments_new h
  have hpointer : (Gdt.new addrs.tss).pointer addrs.gdt = ⟨addrs.gdt, BitVec.ofNat 16 55⟩ := rfl
  rw [loadGdt, hpointer]
  simp only [hdata, hcs, loadTask_new h, Option.bind_eq_bind, Option.bind_some]
  rfl

/-- **Boot**: no descriptor faults, and the tables say what they are to. -/
theorem ArchState.Booting.init_told {addrs : TableAddrs} {s : ArchState} (h : s.Booting addrs)
    (hdisj : addrs.Disjoint) (stubs : Vector Word 32) (entry : Word) :
    ∃ s', s.init addrs stubs entry = some s' ∧ Told addrs s' (.boot stubs) ∧
      s'.cs = kernelCode ∧ s'.data = kernelData ∧ s'.msrs = initSyscalls entry s.msrs := by
  have hfits : 0 + stubs.toList.length ≤ 256 := by simp
  obtain ⟨idt, hinstall, hset, hkept⟩ := Idt.installFrom_ok s.idt hfits
  have hinstall' : s.idt.installExceptions stubs = .ok idt := hinstall
  have hidt := h.written.storeIdt hdisj idt
  have hbuilt := hidt.storeGdt hdisj (Gdt.new addrs.tss)
  have hloaded := hbuilt.storeGdt hdisj (Gdt.loaded addrs.tss)
  refine ⟨{ ((s.storeIdt addrs idt).storeGdt addrs (Gdt.new addrs.tss)).storeGdt addrs
      (Gdt.loaded addrs.tss) with
    regs := ⟨Idt.pointer addrs.idt, ⟨addrs.gdt, BitVec.ofNat 16 55⟩,
      ⟨addrs.tss, TaskStateSegment.size - 1⟩⟩
    cs := kernelCode
    data := kernelData
    msrs := initSyscalls entry s.msrs }, ?_,
    ⟨⟨hloaded.tss, hloaded.idt, hloaded.gdt⟩, rfl, rfl, ?_, ?_, ?_⟩, rfl, rfl, rfl⟩
  · have hload := loadGdt_new (s := { (s.storeIdt addrs idt).storeGdt addrs
      (Gdt.new addrs.tss) with regs := { s.regs with idtr := Idt.pointer addrs.idt } })
      (hbuilt.gdt _ rfl)
    rw [init, hinstall']
    simp only [Option.bind_eq_bind, Except.toOption, Option.bind_some]
    exact (congrArg (Option.bind · _) hload).trans rfl
  · intro vec hvec m a hm
    by_cases hexception : vec < 32
    · have hentry : idt.entries[vec] = Idt.exceptionEntry stubs[vec] := by
        have hstub := hset vec (by simpa) (by simpa)
        simp only [Nat.zero_add] at hstub
        rw [hstub, Vector.getElem_toList]
      rw [Vectors.boot]
      simp only [dif_pos hexception]
      refine gateIn_exceptionEntry (m := m) (a := a) ?_
      rwa [← hentry]
    · have hentry : idt.entries[vec] = .missing := by
        rw [hkept vec hvec (.inr (by simpa using hexception)), h.idt_eq]
        simp [Idt.new]
      rw [Vectors.boot]
      simp only [dif_neg hexception]
      refine IdtEntry.gateIn_missing (m := m) (a := a) ?_
      rwa [← hentry]
  · have htss : s.tss.privilegeStacks.head = 0 := by rw [h.tss_eq]; rfl
    exact htss
  · intro i hi
    have htss : s.tss.interruptStacks[i] = 0 := by
      rw [h.tss_eq]
      simp [TaskStateSegment.new]
    exact htss

/-- What happens to the tables after boot, and to the memory around them. -/
inductive TableCall
  | setHandler (vector : ℕ) (handler : Word) (selector : BitVec 16) (ist gate dpl : BitVec 8)
  | clearHandler (vector : ℕ)
  | setKernelStack (rsp0 : Word)
  | setIst (index : ℕ) (stackTop : Word)
  /-- Other code stores a byte. -/
  | store (a : Word) (b : BitVec 8)

/-- The effect of a call. -/
def ArchState.call (addrs : TableAddrs) (s : ArchState) : TableCall → Except Panic ArchState
  | .setHandler vector handler selector ist gate dpl => do
    return s.storeIdt addrs (← s.idt.setHandler vector (.new handler selector ist gate dpl))
  | .clearHandler vector => do return s.storeIdt addrs (← s.idt.setHandler vector .missing)
  | .setKernelStack rsp0 => .ok (s.storeTss addrs (s.tss.setKernelStack rsp0))
  | .setIst index stackTop => do return s.storeTss addrs (← s.tss.setIst index stackTop)
  | .store a b => .ok { s with mem := s.mem.writeBytes a [b] }

/-- What a call tells the tables. -/
def Vectors.call (v : Vectors) : TableCall → Vectors
  | .setHandler vector handler selector ist gate dpl =>
    let gate := IdtEntry.gateOf handler selector ist gate dpl
    { v with gate := Function.update v.gate vector gate }
  | .clearHandler vector => { v with gate := Function.update v.gate vector none }
  | .setKernelStack rsp0 => { v with kernelStack := rsp0 }
  | .setIst index stackTop => { v with ist := Function.update v.ist index stackTop }
  | .store _ _ => v

/-- A call whose index is in the table. -/
def TableCall.InBounds : TableCall → Prop
  | .setHandler vector .. | .clearHandler vector => vector < 256
  | .setIst index _ => index < 7
  | .setKernelStack _ | .store _ _ => True

/-- Other code stays off the tables. -/
def TableCall.Legal (addrs : TableAddrs) : TableCall → Prop
  | .store a _ => Apart addrs.tss TaskStateSegment.size a 1 ∧ Apart addrs.idt 4096 a 1 ∧
      Apart addrs.gdt 64 a 1
  | _ => True

/-- The tables, and what they were told. -/
structure TableSys where
  arch : ArchState
  told : Vectors

/-- The runs that begin with `init`. -/
def TableSys.machine (addrs : TableAddrs) (stubs : Vector Word 32) (entry : Word) :
    Machine TableSys TableCall where
  init s := ∃ s₀ : ArchState, s₀.Booting addrs ∧ s₀.init addrs stubs entry = some s.arch ∧
    s.told = .boot stubs
  Legal _ call := call.Legal addrs
  next s call := ((s.arch.call addrs call).toOption).map (⟨·, s.told.call call⟩)

namespace Told

variable {addrs : TableAddrs} {s s' : ArchState} {v : Vectors}

theorem storeIdt (hdisj : addrs.Disjoint) (h : Told addrs s v) {vec : ℕ} (hvec : vec < 256)
    {entry : IdtEntry} {gate : Option Gate}
    (hgate : ∀ (m : ByteMem) (a : Word), m.Holds a entry.bytes → gateIn m a = gate) :
    Told addrs (s.storeIdt addrs ⟨s.idt.entries.set vec entry⟩)
      { v with gate := Function.update v.gate vec gate } where
  written := h.written.storeIdt hdisj _
  gdt_eq := h.gdt_eq
  regs_eq := h.regs_eq
  gates vec' hvec' m a hm := by
    change m.Holds a (s.idt.entries.set vec entry)[vec'].bytes at hm
    by_cases heq : vec' = vec
    · subst heq
      rw [Vector.getElem_set_self] at hm
      exact (hgate m a hm).trans (Function.update_self vec' gate v.gate).symm
    · rw [Vector.getElem_set_ne hvec hvec' (Ne.symm heq)] at hm
      exact (h.gates vec' hvec' m a hm).trans (Function.update_of_ne heq gate v.gate).symm
  kernelStack := h.kernelStack
  ist := h.ist

theorem storeTss (hdisj : addrs.Disjoint) (h : Told addrs s v) {tss : TaskStateSegment}
    {kernelStack : Word} {ist : ℕ → Word} (hkernel : tss.privilegeStacks.head = kernelStack)
    (hist : ∀ (i : ℕ) (_ : i < 7), tss.interruptStacks[i] = ist i) :
    Told addrs (s.storeTss addrs tss) { v with kernelStack := kernelStack, ist := ist } where
  written := h.written.storeTss hdisj _
  gdt_eq := h.gdt_eq
  regs_eq := h.regs_eq
  gates := h.gates
  kernelStack := hkernel
  ist := hist

/-- The step lemma: after a call that returns, the tables say what they were told. -/
theorem call (hdisj : addrs.Disjoint) (h : Told addrs s v) {c : TableCall}
    (hlegal : c.Legal addrs) (hcall : s.call addrs c = .ok s') : Told addrs s' (v.call c) := by
  cases c with
  | setHandler vec handler selector ist gate dpl =>
    rw [ArchState.call, Idt.setHandler] at hcall
    split_ifs at hcall with hvec
    · obtain rfl := Except.ok.inj hcall
      exact h.storeIdt hdisj hvec fun _ _ ↦ IdtEntry.gateIn_new _ _ _ _ _
    · cases hcall
  | clearHandler vec =>
    rw [ArchState.call, Idt.setHandler] at hcall
    split_ifs at hcall with hvec
    · obtain rfl := Except.ok.inj hcall
      exact h.storeIdt hdisj hvec fun _ _ ↦ IdtEntry.gateIn_missing
    · cases hcall
  | setKernelStack rsp0 =>
    obtain rfl := Except.ok.inj hcall
    exact h.storeTss hdisj (Vector.getElem_set_self _) h.ist
  | setIst index stackTop =>
    rw [ArchState.call, TaskStateSegment.setIst] at hcall
    split_ifs at hcall with hindex
    · obtain rfl := Except.ok.inj hcall
      refine h.storeTss hdisj h.kernelStack fun i hi ↦ ?_
      by_cases heq : i = index
      · subst heq
        rw [Vector.getElem_set_self, Function.update_self]
      · rw [Vector.getElem_set_ne hindex hi (Ne.symm heq), Function.update_of_ne heq]
        exact h.ist i hi
    · cases hcall
  | store a b =>
    obtain rfl := Except.ok.inj hcall
    obtain ⟨htss, hidt, hgdt⟩ := hlegal
    exact { h with
      written := {
        tss := h.written.tss.writeBytes (by simp [TaskStateSegment.size]) (by simpa using htss)
        idt := h.written.idt.writeBytes (by simp) (by simpa using hidt)
        gdt := fun g hg ↦ (h.written.gdt g hg).writeBytes (by simp) (by simpa using hgdt) } }

end Told

/-! ## Interrupts are taken as told -/

namespace TableSys

variable {addrs : TableAddrs} {stubs : Vector Word 32} {entry : Word} {s s' : TableSys}

/-- The invariant: the tables say what they were told, and the kernel runs in its segments with the
registers of system calls set. -/
structure Inv (addrs : TableAddrs) (entry : Word) (s : TableSys) : Prop where
  told : Told addrs s.arch s.told
  cs_eq : s.arch.cs = kernelCode
  data_eq : s.arch.data = kernelData
  msrs_eq : ∃ m, s.arch.msrs = initSyscalls entry m

theorem inv_init (hdisj : addrs.Disjoint) (h : (machine addrs stubs entry).init s) :
    s.Inv addrs entry := by
  obtain ⟨s₀, hboot, hinit, htold⟩ := h
  obtain ⟨s₁, hinit', htold', hcs, hdata, hmsrs⟩ := hboot.init_told hdisj stubs entry
  obtain rfl : s.arch = s₁ := Option.some.inj (hinit.symm.trans hinit')
  exact ⟨htold ▸ htold', hcs, hdata, s₀.msrs, hmsrs⟩

theorem call_kept {a a' : ArchState} {c : TableCall} (h : a.call addrs c = .ok a') :
    a'.cs = a.cs ∧ a'.data = a.data ∧ a'.msrs = a.msrs := by
  cases c with
  | setHandler vec | clearHandler vec =>
    rw [ArchState.call, Idt.setHandler] at h
    split_ifs at h
    · obtain rfl := Except.ok.inj h
      exact ⟨rfl, rfl, rfl⟩
    · cases h
  | setIst index =>
    rw [ArchState.call, TaskStateSegment.setIst] at h
    split_ifs at h
    · obtain rfl := Except.ok.inj h
      exact ⟨rfl, rfl, rfl⟩
    · cases h
  | setKernelStack | store =>
    obtain rfl := Except.ok.inj h
    exact ⟨rfl, rfl, rfl⟩

theorem next_eq_some {c : TableCall} (h : (machine addrs stubs entry).next s c = some s') :
    s.arch.call addrs c = .ok s'.arch ∧ s'.told = s.told.call c := by
  obtain ⟨a, ha, rfl⟩ := Option.map_eq_some_iff.mp h
  refine ⟨?_, rfl⟩
  cases hcall : s.arch.call addrs c with
  | error e => rw [hcall] at ha; cases ha
  | ok a' => rw [hcall] at ha; exact congrArg _ (Option.some.inj ha)

theorem Inv.step (hdisj : addrs.Disjoint) (h : s.Inv addrs entry) {c : TableCall}
    (hlegal : c.Legal addrs) (hnext : (machine addrs stubs entry).next s c = some s') :
    s'.Inv addrs entry := by
  obtain ⟨hcall, htold⟩ := next_eq_some hnext
  obtain ⟨hcs, hdata, hmsrs⟩ := call_kept hcall
  refine ⟨htold ▸ h.told.call hdisj hlegal hcall, hcs.trans h.cs_eq, hdata.trans h.data_eq, ?_⟩
  obtain ⟨m, hm⟩ := h.msrs_eq
  exact ⟨m, hmsrs.trans hm⟩

theorem inv_of_reachable (hdisj : addrs.Disjoint)
    (h : (machine addrs stubs entry).system.Reachable s) : s.Inv addrs entry :=
  h.invariant (fun _ ↦ inv_init hdisj) fun _ _ _ _ hinv hstep ↦ hinv.step hdisj hstep.1 hstep.2

/-- A call panics exactly when its index is out of bounds. -/
theorem next_isSome_iff (c : TableCall) :
    ((machine addrs stubs entry).next s c).isSome ↔ c.InBounds := by
  change (((s.arch.call addrs c).toOption).map _).isSome ↔ _
  rw [Option.isSome_map]
  cases c with
  | setHandler vec | clearHandler vec =>
    rw [ArchState.call, Idt.setHandler, TableCall.InBounds]
    split_ifs with hvec
    · exact iff_of_true rfl hvec
    · exact iff_of_false (by simp [Except.toOption, bind, Except.bind]) hvec
  | setIst index =>
    rw [ArchState.call, TaskStateSegment.setIst, TableCall.InBounds]
    split_ifs with hindex
    · exact iff_of_true rfl hindex
    · exact iff_of_false (by simp [Except.toOption, bind, Except.bind]) hindex
  | setKernelStack | store => exact iff_of_true rfl trivial

theorem exists_init (hdisj : addrs.Disjoint) (stubs : Vector Word 32) (entry : Word) :
    ∃ s : TableSys, (machine addrs stubs entry).init s ∧ s.told = .boot stubs := by
  have hboot := ArchState.booting_loaded hdisj ⟨.new, .new, none, fun _ ↦ 0,
    ⟨⟨0, 0⟩, ⟨0, 0⟩, ⟨0, 0⟩⟩, 0, 0, fun _ ↦ 0⟩
  obtain ⟨arch, hinit, -⟩ := hboot.init_told hdisj stubs entry
  exact ⟨⟨arch, .boot stubs⟩, ⟨_, hboot, hinit, rfl⟩, rfl⟩

theorem exists_next (addrs : TableAddrs) (stubs : Vector Word 32) (entry : Word) (s : TableSys)
    {c : TableCall} (hlegal : c.Legal addrs) (hin : c.InBounds) : ∃ s' : TableSys,
    (machine addrs stubs entry).system.step s c s' ∧ s'.told = s.told.call c := by
  obtain ⟨s', hs'⟩ := Option.isSome_iff_exists.mp ((next_isSome_iff c).mpr hin)
  exact ⟨s', ⟨hlegal, hs'⟩, (next_eq_some hs').2⟩

variable (stubs entry) in
/-- **The processor takes every interrupt as the tables were last told.** Boot succeeds whatever the
processor and the rest of memory were like; after any calls, and whatever other code stored outside
the tables, the processor finds for every vector, at every level and with every stack, the handler,
the segment, the stack and the mask that were last set, or nothing where nothing was. A call panics
only for an index outside its table. -/
theorem delivery_refines (hdisj : addrs.Disjoint) :
    (∀ s₀ : ArchState, s₀.Booting addrs → ∃ s, s₀.init addrs stubs entry = some s) ∧
    ∀ s, (machine addrs stubs entry).system.Reachable s →
      (∀ vector software cpl rsp, s.arch.regs.deliver s.arch.mem vector software cpl rsp
        = s.told.deliver vector software cpl rsp) ∧
      ∀ c, ((machine addrs stubs entry).next s c).isSome ↔ c.InBounds := by
  refine ⟨fun s₀ hboot ↦ ?_, fun s hs ↦ ⟨fun vector software cpl rsp ↦ ?_, next_isSome_iff⟩⟩
  · obtain ⟨s, hinit, -⟩ := hboot.init_told hdisj stubs entry
    exact ⟨s, hinit⟩
  · exact (inv_of_reachable hdisj hs).told.deliver_eq vector software cpl rsp

/-- Statics at three addresses, and the stubs in a row. -/
def sampleAddrs : TableAddrs := ⟨0x1000, 0x2000, 0x4000⟩

/-- Stubs at every sixteen bytes. -/
def sampleStubs : Vector Word 32 := Vector.ofFn fun i ↦ 0x100000 + BitVec.ofNat 64 (16 * i)

theorem sampleAddrs_disjoint : sampleAddrs.Disjoint where
  tss_idt x := by
    simp only [sampleAddrs, TaskStateSegment.size]
    bv_omega
  tss_gdt x := by
    simp only [sampleAddrs, TaskStateSegment.size]
    bv_omega
  idt_gdt x := by
    simp only [sampleAddrs]
    bv_omega

/-- With a kernel stack and a gate for user code, a page fault in user code goes to stub 14 on the
kernel stack, and the gate of vector 0x80 may be asked for. -/
theorem delivery_refines_pageFault : ∃ s : TableSys,
    (machine sampleAddrs sampleStubs 0x200000).system.Reachable s ∧
    s.arch.regs.deliver s.arch.mem 14 false 3 0x7008
      = some ⟨0x1000e0, kernelCode, 0, 0x9000, true⟩ ∧
    s.arch.regs.deliver s.arch.mem 0x80 true 3 0x7008
      = some ⟨0x300000, kernelCode, 0, 0x9000, false⟩ ∧
    s.arch.regs.deliver s.arch.mem 0x81 false 3 0x7008 = none := by
  have hdisj := sampleAddrs_disjoint
  obtain ⟨-, hdeliver⟩ := delivery_refines sampleStubs 0x200000 hdisj
  obtain ⟨s₀, hinit, htold₀⟩ := exists_init hdisj sampleStubs 0x200000
  obtain ⟨s₁, hs₁, htold₁⟩ := exists_next sampleAddrs sampleStubs 0x200000 s₀
    (c := .setKernelStack 0x9000) trivial trivial
  obtain ⟨s₂, hs₂, htold₂⟩ := exists_next sampleAddrs sampleStubs 0x200000 s₁
    (c := .setHandler 0x80 0x300000 kernelCode 0 gateTrap 3) trivial (by decide : 0x80 < 256)
  have htold : s₂.told = ((Vectors.boot sampleStubs).call (.setKernelStack 0x9000)).call
      (.setHandler 0x80 0x300000 kernelCode 0 gateTrap 3) := by
    rw [htold₂, htold₁, htold₀]
  have hreach := ((TransitionSystem.Reachable.init hinit).step hs₁).step hs₂
  refine ⟨s₂, hreach, ?_, ?_, ?_⟩ <;> rw [(hdeliver s₂ hreach).1, htold] <;> decide

end TableSys

end Zeroxos
