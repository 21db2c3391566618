import Zeroxos.Library.Layout

/-!
# Descriptor tables

How an x86-64 processor in long mode takes an interrupt: it reads the gate of the vector from one
table, the code segment that the gate names from another, and from the task segment the stack to
switch to. Everything is read from memory at addresses that were loaded into registers before, so
what the processor does is what somebody wrote there, byte by byte.

## Checks

Limits, present bits, types and privilege levels are checked as the manual has it; a check that
fails is `none`, another exception. Whether an address is canonical or mapped is left to the page
tables.
-/

namespace Zeroxos

/-- A table register: the address of the table, and the offset of its last byte. -/
structure TableReg where
  base : Word
  limit : BitVec 16
deriving DecidableEq

/-- The task register: where the task segment is, and the offset of its last byte. -/
structure TaskReg where
  base : Word
  limit : ℕ
deriving DecidableEq

/-! ## Segments -/

namespace Segment

variable (d : Word)

/-- The descriptor may be used. -/
def present : Bool := d.getLsbD 47

/-- The level that the segment gives its code, or asks of who loads it. -/
def dpl : BitVec 2 := d.extractLsb' 45 2

/-- A segment of code or data, not one of the system's. -/
def codeOrData : Bool := d.getLsbD 44

/-- The type of a system segment. -/
def type : BitVec 4 := d.extractLsb' 40 4

/-- Code, and not data. -/
def executable : Bool := d.getLsbD 43

/-- Code that runs at the level of its caller. -/
def conforming : Bool := d.getLsbD 42

/-- Data that may be written. -/
def writable : Bool := d.getLsbD 41

/-- Sizes are in units of 4096 bytes. -/
def granular : Bool := d.getLsbD 55

/-- A segment of 64-bit code. -/
def IsCode : Prop := present d ∧ codeOrData d ∧ executable d ∧ d.getLsbD 53 ∧ ¬d.getLsbD 54

/-- A segment that a stack or data may be in. -/
def IsData : Prop := present d ∧ codeOrData d ∧ ¬executable d ∧ writable d

instance : Decidable (IsCode d) := inferInstanceAs (Decidable (_ ∧ _))

instance : Decidable (IsData d) := inferInstanceAs (Decidable (_ ∧ _))

/-- The offset of the last byte. -/
def limit : ℕ :=
  let units := (d.extractLsb' 48 4 ++ d.extractLsb' 0 16).toNat
  if granular d then 4096 * units + 4095 else units

/-- The base, whose upper half is in the second half of the descriptor of a system segment. -/
def base (high : Word) : Word :=
  high.extractLsb' 0 32 ++ d.extractLsb' 56 8 ++ d.extractLsb' 16 24

end Segment

/-- The entry of the global table that a selector names, which may not be the first one. -/
def descriptorAt (gdtr : TableReg) (m : ByteMem) (selector : BitVec 16) : Option Word :=
  let offset := 8 * (selector.toNat / 8)
  if ¬selector.getLsbD 2 ∧ offset ≠ 0 ∧ offset + 7 ≤ gdtr.limit.toNat then
    some (m.read (gdtr.base + BitVec.ofNat 64 offset))
  else none

/-- `ltr`: the task register after it, and the descriptor, marked busy, that it writes back. -/
def loadTask (gdtr : TableReg) (m : ByteMem) (selector : BitVec 16) : Option (TaskReg × Word) := do
  let low ← descriptorAt gdtr m selector
  let offset := 8 * (selector.toNat / 8) + 8
  guard (offset + 7 ≤ gdtr.limit.toNat ∧ Segment.present low ∧ ¬Segment.codeOrData low ∧
    Segment.type low = 0x9)
  let high := m.read (gdtr.base + BitVec.ofNat 64 offset)
  return (⟨Segment.base low high, Segment.limit low⟩, low ||| 1 <<< 41)

/-- A load of a data segment register at level 0. -/
def loadData (gdtr : TableReg) (m : ByteMem) (selector : BitVec 16) : Option (BitVec 16) := do
  let d ← descriptorAt gdtr m selector
  guard (Segment.IsData d ∧ Segment.dpl d = 0 ∧ selector.extractLsb' 0 2 = 0)
  return selector

/-- A far return at level 0. -/
def farReturn (gdtr : TableReg) (m : ByteMem) (selector : BitVec 16) : Option (BitVec 16) := do
  let d ← descriptorAt gdtr m selector
  guard (Segment.IsCode d ∧ Segment.dpl d = 0 ∧ selector.extractLsb' 0 2 = 0)
  return selector

section Load

variable {gdtr : TableReg} {m : ByteMem} {selector : BitVec 16} {d : Word}

theorem loadData_of (hd : descriptorAt gdtr m selector = some d)
    (h : Segment.IsData d ∧ Segment.dpl d = 0 ∧ selector.extractLsb' 0 2 = 0) :
    loadData gdtr m selector = some selector := by
  simp [loadData, hd, guard, h]

theorem farReturn_of (hd : descriptorAt gdtr m selector = some d)
    (h : Segment.IsCode d ∧ Segment.dpl d = 0 ∧ selector.extractLsb' 0 2 = 0) :
    farReturn gdtr m selector = some selector := by
  simp [farReturn, hd, guard, h]

theorem loadTask_of (hd : descriptorAt gdtr m selector = some d)
    (hlimit : 8 * (selector.toNat / 8) + 15 ≤ gdtr.limit.toNat)
    (h : Segment.present d ∧ ¬Segment.codeOrData d ∧ Segment.type d = 0x9) :
    loadTask gdtr m selector = some (⟨Segment.base d
      (m.read (gdtr.base + BitVec.ofNat 64 (8 * (selector.toNat / 8) + 8))), Segment.limit d⟩,
      d ||| 1 <<< 41) := by
  rw [loadTask, hd, Option.bind_eq_bind, Option.bind_some]
  simp only [guard, if_pos (⟨hlimit, h⟩ : 8 * (selector.toNat / 8) + 8 + 7 ≤ gdtr.limit.toNat ∧
    Segment.present d ∧ ¬Segment.codeOrData d ∧ Segment.type d = 0x9)]
  rfl

end Load

/-- The word at an offset of the task segment. -/
def TaskReg.word (task : TaskReg) (m : ByteMem) (offset : ℕ) : Option Word :=
  if offset + 7 ≤ task.limit then some (m.read (task.base + BitVec.ofNat 64 offset)) else none

/-! ## Gates -/

/-- What a gate says. -/
structure Gate where
  handler : Word
  selector : BitVec 16
  /-- The stack to switch to, 0 for none. -/
  ist : BitVec 3
  /-- Whether interrupts stay enabled. -/
  trap : Bool
  /-- The level that may ask for the vector by an instruction. -/
  dpl : BitVec 2
deriving DecidableEq

/-- The sixteen bytes at an address, as a gate. -/
def gateIn (m : ByteMem) (a : Word) : Option Gate :=
  let attr := m (a + 5)
  if attr.getLsbD 7 ∧ attr.extractLsb' 0 5 ∈ [0xE#5, 0xF#5] then
    some {
      handler := BitVec.ofNat 64 (m.num 2 a + 2 ^ 16 * m.num 2 (a + 6) + 2 ^ 32 * m.num 4 (a + 8))
      selector := BitVec.ofNat 16 (m.num 2 (a + 2))
      ist := (m (a + 4)).extractLsb' 0 3
      trap := attr.getLsbD 0
      dpl := attr.extractLsb' 5 2 }
  else none

/-- The gate of a vector, inside the table. -/
def gateAt (idtr : TableReg) (m : ByteMem) (vector : BitVec 8) : Option Gate :=
  if 16 * vector.toNat + 15 ≤ idtr.limit.toNat then
    gateIn m (idtr.base + BitVec.ofNat 64 (16 * vector.toNat))
  else none

/-! ## Taking an interrupt -/

/-- The registers that say where the tables are. -/
structure TableRegs where
  idtr : TableReg
  gdtr : TableReg
  task : TaskReg

/-- Where an interrupt is taken. -/
structure Arrival where
  rip : Word
  cs : BitVec 16
  cpl : BitVec 2
  /-- The stack, aligned, that the processor pushes to. -/
  rsp : Word
  /-- Whether further interrupts have to wait. -/
  masked : Bool
deriving DecidableEq

/-- A stack pointer as the processor aligns it. -/
def alignStack (rsp : Word) : Word := rsp &&& ~~~15

/-- The stack: the one the gate asks for, or that of the new level, or the one in use. -/
def TaskReg.stack (task : TaskReg) (m : ByteMem) (ist : BitVec 3) (cpl level : BitVec 2)
    (rsp : Word) : Option Word :=
  if ist ≠ 0 then task.word m (36 + 8 * (ist.toNat - 1))
  else if level < cpl then task.word m (4 + 8 * level.toNat)
  else some rsp

/-- **Take an interrupt** at level `cpl` with the stack `rsp`. One that an instruction asks for is
subject to the level of its gate. -/
def TableRegs.deliver (r : TableRegs) (m : ByteMem) (vector : BitVec 8) (software : Bool)
    (cpl : BitVec 2) (rsp : Word) : Option Arrival := do
  let gate ← gateAt r.idtr m vector
  guard (software → cpl ≤ gate.dpl)
  let code ← descriptorAt r.gdtr m gate.selector
  guard (Segment.IsCode code ∧ Segment.dpl code ≤ cpl)
  let level := if Segment.conforming code then cpl else Segment.dpl code
  let stack ← r.task.stack m gate.ist cpl level rsp
  return {
    rip := gate.handler
    cs := gate.selector.extractLsb' 2 14 ++ level
    cpl := level
    rsp := alignStack stack
    masked := !gate.trap }

namespace TableRegs

variable {r : TableRegs} {m : ByteMem} {vector : BitVec 8} {software : Bool} {cpl : BitVec 2}
  {rsp : Word} {gate : Gate}

theorem deliver_of_gate (h : gateAt r.idtr m vector = none) :
    r.deliver m vector software cpl rsp = none := by
  rw [deliver, h]
  rfl

theorem deliver_of_not_code (hgate : gateAt r.idtr m vector = some gate)
    (hcode : ∀ d, descriptorAt r.gdtr m gate.selector = some d → ¬Segment.IsCode d) :
    r.deliver m vector software cpl rsp = none := by
  rw [deliver, hgate]
  cases hd : descriptorAt r.gdtr m gate.selector with
  | none => simp [hd]
  | some d => simp [hd, guard, hcode d hd]

/-- What is left to check when everything was found. -/
theorem deliver_of_code {d stack : Word} (hgate : gateAt r.idtr m vector = some gate)
    (hd : descriptorAt r.gdtr m gate.selector = some d) (hcode : Segment.IsCode d)
    (hown : ¬Segment.conforming d)
    (hstack : Segment.dpl d ≤ cpl →
      r.task.stack m gate.ist cpl (Segment.dpl d) rsp = some stack) :
    r.deliver m vector software cpl rsp =
      if (software → cpl ≤ gate.dpl) ∧ Segment.dpl d ≤ cpl then
        some ⟨gate.handler, gate.selector.extractLsb' 2 14 ++ Segment.dpl d, Segment.dpl d,
          alignStack stack, !gate.trap⟩
      else none := by
  rw [deliver, hgate]
  split_ifs with h
  · obtain ⟨hsoftware, hlevel⟩ := h
    simp [guard, if_pos hsoftware, hd, hcode, hown, hlevel, hstack hlevel]
  · rw [not_and_or] at h
    rcases h with h | h
    · simp [guard, h]
    · simp [guard, h, hd]

end TableRegs

end Zeroxos
