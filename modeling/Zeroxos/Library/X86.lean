import Zeroxos.Library.ByteMem

/-!
# A fragment of the x86-64 instruction set

Enough of the processor to run a hand-written routine that moves registers to and from the stack:
the general registers, the instruction pointer, the page-table root `cr3`, the zero flag, and
memory. A routine is the list of its instructions. Its one kind of jump goes forward, over a given
number of instructions, so that running a routine is a recursion on the list.
-/

namespace Zeroxos

/-- The general-purpose registers. -/
inductive Reg
  | rax | rbx | rcx | rdx | rsi | rdi | rbp | rsp
  | r8 | r9 | r10 | r11 | r12 | r13 | r14 | r15
deriving DecidableEq, Repr

/-- The processor and the memory it is attached to. -/
structure Cpu where
  regs : Reg → Word
  rip : Word
  cr3 : Word
  /-- The zero flag. -/
  zf : Bool
  mem : ByteMem

/-- The instructions of the fragment. -/
inductive Instr
  | push (src : Reg)
  | pop (dst : Reg)
  /-- `mov [base + offset], src` -/
  | store (base : Reg) (offset : Word) (src : Reg)
  /-- `mov dst, [base + offset]` -/
  | load (dst base : Reg) (offset : Word)
  /-- `mov dst, cr3` -/
  | readCr3 (dst : Reg)
  /-- `mov cr3, src` -/
  | writeCr3 (src : Reg)
  | cmp (a b : Reg)
  /-- Jump over the next `skip` instructions if the last comparison found equality. -/
  | je (skip : ℕ)
  | ret
deriving DecidableEq, Repr

namespace Cpu

open Reg

variable (c : Cpu)

/-- The processor after a register was written. -/
def set (r : Reg) (v : Word) : Cpu := { c with regs := Function.update c.regs r v }

/-- Store a word below the stack pointer and move the pointer down to it. -/
def pushWord (v : Word) : Cpu :=
  { c with
    regs := Function.update c.regs rsp (c.regs rsp - 8)
    mem := c.mem.write (c.regs rsp - 8) v }

/-- The effect of one instruction, jumps apart. -/
def step : Instr → Cpu
  | .push src => c.pushWord (c.regs src)
  | .pop dst => (c.set rsp (c.regs rsp + 8)).set dst (c.mem.read (c.regs rsp))
  | .store base offset src => { c with mem := c.mem.write (c.regs base + offset) (c.regs src) }
  | .load dst base offset => c.set dst (c.mem.read (c.regs base + offset))
  | .readCr3 dst => c.set dst c.cr3
  | .writeCr3 src => { c with cr3 := c.regs src }
  | .cmp a b => { c with zf := c.regs a == c.regs b }
  | .je _ => c
  | .ret => { c.set rsp (c.regs rsp + 8) with rip := c.mem.read (c.regs rsp) }

/-- Run a routine, jumping over the first `skip` of its instructions. -/
def exec : List Instr → ℕ → Cpu → Cpu
  | [], _, c => c
  | _ :: code, skip + 1, c => exec code skip c
  | .je n :: code, 0, c => exec code (if c.zf then n else 0) c
  | i :: code, 0, c => exec code 0 (c.step i)

/-- A routine without jumps hands its result to whatever follows it. -/
theorem exec_append {code : List Instr} (h : ∀ n, .je n ∉ code) (rest : List Instr) (c : Cpu) :
    exec (code ++ rest) 0 c = exec rest 0 (exec code 0 c) := by
  induction code generalizing c with
  | nil => rfl
  | cons i code ih =>
    have htail : ∀ n, .je n ∉ code := fun n hn ↦ h n (List.mem_cons_of_mem _ hn)
    cases i with
    | je n => exact absurd List.mem_cons_self (h n)
    | _ => exact ih htail _

/-- `call`: push the address of the next instruction, and run the routine. -/
def call (code : List Instr) (next : Word) : Cpu := exec code 0 (c.pushWord next)

end Cpu

end Zeroxos
