import Zeroxos.Library.EntryStub
import Zeroxos.Kernel.Syscall

/-!
# Trap and system call entry

The assembly of `arch/x86_64/syscall.rs` and `arch/x86_64/idt.rs`, instruction by instruction, and
the two `repr(C)` frames that the Rust side reads.

## Order

A frame is right when the order of its fields is the reverse of the order of the pushes; the stubs
restore what they saved when the order of the pops is too. Nothing but the two lists and the two
structures says so in the source, and `trap_entry` is that they agree, for any handler that returns.

## Listings

A stub that ends with `jmp isr_common` is the concatenation with it. As in the source, the 32 stubs
are made by one macro (`isr`), of the number and of whether the processor pushes an error code;
`handlers_eq` is that the table of the stubs has both right.
-/

namespace Zeroxos

open Reg EntryCpu

/-! ## System calls -/

def syscallEntry : List EntryInstr := [
  .swapgs,
  .push rcx,
  .push r11,
  .push rax,
  .push rdi,
  .push rsi,
  .push rdx,
  .push r10,
  .push r8,
  .push r9,
  .mov rdi rsp,
  .call,
  .pop r9,
  .pop r8,
  .pop r10,
  .pop rdx,
  .pop rsi,
  .pop rdi,
  .addImm rsp 8,
  .pop r11,
  .pop rcx,
  .swapgs,
  .sysretq]

/-- The frame at an address. -/
def SyscallFrame.load (m : ByteMem) (a : Word) : SyscallFrame where
  r9 := m.read a
  r8 := m.read (a + 8)
  r10 := m.read (a + 16)
  rdx := m.read (a + 24)
  rsi := m.read (a + 32)
  rdi := m.read (a + 40)
  nr := m.read (a + 48)
  rflags := m.read (a + 56)
  rip := m.read (a + 64)

theorem SyscallFrame.load_eq {m : ByteMem} {a : Word} {f : SyscallFrame}
    (h : m.words 9 a = [f.r9, f.r8, f.r10, f.rdx, f.rsi, f.rdi, f.nr, f.rflags, f.rip]) :
    load m a = f := by
  simp only [ByteMem.words, BitVec.add_assoc, BitVec.reduceAdd, List.cons.injEq, and_true] at h
  rw [load, mk.injEq]
  exact h

/-- The registers that a system call saves, in the order of the pushes. -/
def syscallSaved : List Reg := [rcx, r11, rax, rdi, rsi, rdx, r10, r8, r9]

/-- What follows the call in `syscallEntry`. -/
def syscallExit : List EntryInstr :=
  [r9, r8, r10, rdx, rsi, rdi].map .pop ++ .addImm rsp 8 ::
    ([r11, rcx].map .pop ++ [.swapgs, .sysretq])

theorem syscallEntry_eq : syscallEntry = .swapgs :: framed syscallSaved syscallExit := rfl

/-- The frame that a system call passes on. -/
def syscallFrameOf (c : EntryCpu) : SyscallFrame where
  r9 := c.regs r9
  r8 := c.regs r8
  r10 := c.regs r10
  rdx := c.regs rdx
  rsi := c.regs rsi
  rdi := c.regs rdi
  nr := c.regs rax
  rflags := c.regs r11
  rip := c.regs rcx

variable {callee : EntryCpu → EntryCpu} {next : Word} {c d : EntryCpu} {r : Reg}

/-- The processor after `swapgs`. -/
def swapped (c : EntryCpu) : EntryCpu :=
  { c with gsBase := c.kernelGsBase, kernelGsBase := c.gsBase }

theorem handed_syscallEntry : c.handed callee next syscallEntry
    = (swapped c).handed callee next (framed syscallSaved syscallExit) := by
  rw [syscallEntry_eq]
  rfl

theorem exec_syscallEntry : c.exec callee next syscallEntry
    = (swapped c).exec callee next (framed syscallSaved syscallExit) := by
  rw [syscallEntry_eq]
  rfl

private theorem rsp_notMem_syscallSaved : rsp ∉ syscallSaved := by decide

theorem load_syscallFrame : let e := c.handed callee next syscallEntry
    SyscallFrame.load e.mem (e.regs rdi) = syscallFrameOf c := by
  rw [handed_syscallEntry]
  exact SyscallFrame.load_eq (words_handed _ _ _ rsp_notMem_syscallSaved (n := 0) (by decide))

/-- The way out of a system call restores what is on the stack. -/
theorem exec_syscallExit
    (hstack : d.stack 9 = (syscallSaved.map c.regs).reverse) (hrsp : d.regs rsp = c.regs rsp - 72)
    (hkept : ∀ r ∈ calleeSaved, d.regs r = c.regs r) (hr : r ≠ rax) :
    (d.exec callee next syscallExit).regs r = c.regs r := by
  obtain ⟨d₁, hexec₁, hargs⟩ := exec_pops_drop callee next [r9, r8, r10, rdx, rsi, rdi]
    (by decide) (by decide) 1 ([r11, rcx].map .pop ++ [.swapgs, .sysretq]) d
  obtain ⟨d₂, hexec₂, hflags⟩ := exec_pops_append callee next [r11, rcx] (by decide)
    (by decide) [.swapgs, .sysretq] d₁
  have hregs : (d.exec callee next syscallExit).regs = d₂.regs :=
    congrArg (fun c ↦ c.regs) (hexec₁.trans hexec₂)
  have hrest : d₁.stack 2 = [c.regs r11, c.regs rcx] := by
    rw [hargs.stack 2]
    exact congrArg (List.drop 7) hstack
  have hargs' : ∀ r ∈ [r9, r8, r10, rdx, rsi, rdi], d₁.regs r = c.regs r := fun r hr ↦
    hargs.regs (n := 3) hstack hr
  have hflags' : ∀ r ∈ [r11, rcx], d₂.regs r = c.regs r := fun r hr ↦
    hflags.regs (n := 0) (l := []) hrest hr
  rw [hregs]
  cases r with
  | rax => exact absurd rfl hr
  | rsp =>
    rw [hflags.rsp_eq, hargs.rsp_eq, hrsp]
    simp only [List.length_cons, List.length_nil]
    bv_omega
  | r11 | rcx => exact hflags' _ (by decide)
  | r9 | r8 | r10 | rdx | rsi | rdi =>
    exact (hflags.kept _ (by decide) (by decide)).trans (hargs' _ (by decide))
  | rbx | rbp | r12 | r13 | r14 | r15 =>
    exact ((hflags.kept _ (by decide) (by decide)).trans
      (hargs.kept _ (by decide) (by decide))).trans (hkept _ (by decide))

theorem regs_syscallEntry
    (hret : Returned 9 (c.handed callee next syscallEntry)
      (callee (c.handed callee next syscallEntry))) (hr : r ≠ rax) :
    (c.exec callee next syscallEntry).regs r = c.regs r := by
  have hsaved := rsp_notMem_syscallSaved
  rw [handed_syscallEntry] at hret
  rw [exec_syscallEntry, exec_framed hsaved]
  exact exec_syscallExit (c := swapped c) (hret.stack_framed hsaved (n := 0) (by decide))
    (hret.rsp_framed hsaved) (fun r hr ↦ hret.regs_framed hsaved hr) hr

/-! ## Exceptions -/

def isrCommon : List EntryInstr := [
  .push rax, .push rbx, .push rcx, .push rdx,
  .push rsi, .push rdi, .push rbp,
  .push r8, .push r9, .push r10, .push r11,
  .push r12, .push r13, .push r14, .push r15,
  .mov rdi rsp,
  .call,
  .pop r15, .pop r14, .pop r13, .pop r12,
  .pop r11, .pop r10, .pop r9, .pop r8,
  .pop rbp, .pop rdi, .pop rsi,
  .pop rdx, .pop rcx, .pop rbx, .pop rax,
  .addImm rsp 16,
  .iretq]

/-- `isr!`. The last argument is `err`, rather than `noerr`. -/
def isr (vec : Word) : Bool → List EntryInstr
  | false => .pushImm 0 :: .pushImm vec :: isrCommon
  | true => .pushImm vec :: isrCommon

/-- The stubs that `install_exceptions` enters in the table. -/
def handlers : List (List EntryInstr) := [
  isr 0 false, isr 1 false,
  isr 2 false, isr 3 false,
  isr 4 false, isr 5 false,
  isr 6 false, isr 7 false,
  isr 8 true, isr 9 false,
  isr 10 true, isr 11 true,
  isr 12 true, isr 13 true,
  isr 14 true, isr 15 false,
  isr 16 false, isr 17 true,
  isr 18 false, isr 19 false,
  isr 20 false, isr 21 true,
  isr 22 false, isr 23 false,
  isr 24 false, isr 25 false,
  isr 26 false, isr 27 false,
  isr 28 false, isr 29 true,
  isr 30 true, isr 31 false]

/-- The exceptions for which the processor pushes an error code. -/
def PushesErrorCode (vec : ℕ) : Prop := vec ∈ [8, 10, 11, 12, 13, 14, 17, 21, 29, 30]

instance (vec : ℕ) : Decidable (PushesErrorCode vec) :=
  inferInstanceAs (Decidable (vec ∈ [8, 10, 11, 12, 13, 14, 17, 21, 29, 30]))

/-- Every stub pushes its own number, and an error code where the processor does not. -/
theorem handlers_eq : handlers
    = (List.range 32).map fun vec ↦ isr (BitVec.ofNat 64 vec) (decide (PushesErrorCode vec)) := rfl

structure InterruptFrame where
  r15 : Word
  r14 : Word
  r13 : Word
  r12 : Word
  r11 : Word
  r10 : Word
  r9 : Word
  r8 : Word
  rbp : Word
  rdi : Word
  rsi : Word
  rdx : Word
  rcx : Word
  rbx : Word
  rax : Word
  /-- Pushed by the stub. -/
  vector : Word
  /-- From the processor, or 0 from the stub. -/
  errorCode : Word
  rip : Word
  cs : Word
  rflags : Word
  rsp : Word
  ss : Word
deriving DecidableEq

/-- The frame at an address. -/
def InterruptFrame.load (m : ByteMem) (a : Word) : InterruptFrame where
  r15 := m.read a
  r14 := m.read (a + 8)
  r13 := m.read (a + 16)
  r12 := m.read (a + 24)
  r11 := m.read (a + 32)
  r10 := m.read (a + 40)
  r9 := m.read (a + 48)
  r8 := m.read (a + 56)
  rbp := m.read (a + 64)
  rdi := m.read (a + 72)
  rsi := m.read (a + 80)
  rdx := m.read (a + 88)
  rcx := m.read (a + 96)
  rbx := m.read (a + 104)
  rax := m.read (a + 112)
  vector := m.read (a + 120)
  errorCode := m.read (a + 128)
  rip := m.read (a + 136)
  cs := m.read (a + 144)
  rflags := m.read (a + 152)
  rsp := m.read (a + 160)
  ss := m.read (a + 168)

theorem InterruptFrame.load_eq {m : ByteMem} {a : Word} {f : InterruptFrame}
    (h : m.words 22 a = [f.r15, f.r14, f.r13, f.r12, f.r11, f.r10, f.r9, f.r8, f.rbp, f.rdi, f.rsi,
      f.rdx, f.rcx, f.rbx, f.rax, f.vector, f.errorCode, f.rip, f.cs, f.rflags, f.rsp, f.ss]) :
    load m a = f := by
  simp only [ByteMem.words, BitVec.add_assoc, BitVec.reduceAdd, List.cons.injEq, and_true] at h
  rw [load, mk.injEq]
  exact h

/-- What the processor saves of what it was doing. -/
structure Interrupted where
  cs : Word
  rflags : Word
  ss : Word
  /-- The stack that the exception is taken on. -/
  top : Word
  /-- The error code, of an exception that has one. -/
  errorCode : Option Word

/-- The five words that the processor pushes for every exception, the last one first. -/
def Interrupted.saved (i : Interrupted) (c : EntryCpu) : List Word :=
  [c.rip, i.cs, i.rflags, c.regs rsp, i.ss]

/-- The processor when the stub of an exception is entered. -/
def Interrupted.deliver (i : Interrupted) (c : EntryCpu) : EntryCpu :=
  c.withCpu ((c.toCpu.set rsp i.top).pushWords ((i.saved c).reverse ++ i.errorCode.toList))

/-- The frame that the dispatcher is to be passed. -/
def Interrupted.frame (i : Interrupted) (c : EntryCpu) (vec : Word) : InterruptFrame where
  r15 := c.regs r15
  r14 := c.regs r14
  r13 := c.regs r13
  r12 := c.regs r12
  r11 := c.regs r11
  r10 := c.regs r10
  r9 := c.regs r9
  r8 := c.regs r8
  rbp := c.regs rbp
  rdi := c.regs rdi
  rsi := c.regs rsi
  rdx := c.regs rdx
  rcx := c.regs rcx
  rbx := c.regs rbx
  rax := c.regs rax
  vector := vec
  errorCode := i.errorCode.getD 0
  rip := c.rip
  cs := i.cs
  rflags := i.rflags
  rsp := c.regs rsp
  ss := i.ss

/-- The registers that `isrCommon` saves, in the order of the pushes. -/
def isrSaved : List Reg :=
  [rax, rbx, rcx, rdx, rsi, rdi, rbp, r8, r9, r10, r11, r12, r13, r14, r15]

/-- What follows the call in `isrCommon`. -/
def isrExit : List EntryInstr := isrSaved.reverse.map .pop ++ .addImm rsp 16 :: [.iretq]

theorem isrCommon_eq : isrCommon = framed isrSaved isrExit := rfl

private theorem rsp_notMem_isrSaved : rsp ∉ isrSaved := by decide

variable {i : Interrupted} {vec : Word}

/-- The processor when `isrCommon` is entered. -/
def Interrupted.common (i : Interrupted) (c : EntryCpu) (vec : Word) : EntryCpu :=
  c.withCpu ((c.toCpu.set rsp i.top).pushWords ((i.saved c).reverse ++ [i.errorCode.getD 0, vec]))

/-- Error code or not, `isrCommon` finds the same stack. -/
theorem handed_isr (c : EntryCpu) :
    (i.deliver c).handed callee next (isr vec i.errorCode.isSome)
      = (i.common c vec).handed callee next (framed isrSaved isrExit) := by
  rw [← isrCommon_eq]
  obtain ⟨cs, rflags, ss, top, _ | code⟩ := i <;> rfl

theorem exec_isr (c : EntryCpu) :
    (i.deliver c).exec callee next (isr vec i.errorCode.isSome)
      = (i.common c vec).exec callee next (framed isrSaved isrExit) := by
  rw [← isrCommon_eq]
  obtain ⟨cs, rflags, ss, top, _ | code⟩ := i <;> rfl

theorem stack_common : (i.common c vec).stack 7 = vec :: i.errorCode.getD 0 :: i.saved c :=
  Cpu.stack_pushWords (n := 0) (by decide : 8 * 7 ≤ 2 ^ 64)

theorem common_rsp : (i.common c vec).regs rsp = i.top - 56 := by
  have hpushed := Cpu.pushWords_rsp (c := c.toCpu.set rsp i.top)
    (l := (i.saved c).reverse ++ [i.errorCode.getD 0, vec])
  rwa [Cpu.set_self] at hpushed

theorem common_regs (hr : r ≠ rsp) : (i.common c vec).regs r = c.regs r :=
  (Cpu.pushWords_regs hr).trans (Cpu.set_of_ne hr)

theorem load_interruptFrame :
    let e := (i.deliver c).handed callee next (isr vec i.errorCode.isSome)
    InterruptFrame.load e.mem (e.regs rdi) = i.frame c vec := by
  rw [handed_isr]
  have hwords := words_handed callee next isrExit rsp_notMem_isrSaved (c := i.common c vec) (n := 7)
    (by decide)
  have hsaved : isrSaved.map (i.common c vec).regs = isrSaved.map c.regs :=
    List.map_congr_left fun r hr ↦ common_regs (by rintro rfl; exact rsp_notMem_isrSaved hr)
  rw [hsaved, stack_common] at hwords
  exact InterruptFrame.load_eq hwords

theorem exec_isrExit
    (hstack : d.stack 22 = (isrSaved.map c.regs).reverse ++ vec :: i.errorCode.getD 0 :: i.saved c)
    (hrsp : d.regs rsp = i.top - 176) :
    (∀ r ≠ rsp, (d.exec callee next isrExit).regs r = c.regs r) ∧
      (d.exec callee next isrExit).regs rsp = i.top - 40 ∧
      (d.exec callee next isrExit).stack 5 = i.saved c := by
  obtain ⟨d', hexec, hpopped⟩ := exec_pops_drop callee next isrSaved.reverse (by decide) (by decide)
    2 [.iretq] d
  have hexit : d.exec callee next isrExit = d' := hexec
  rw [hexit]
  refine ⟨fun r hr ↦ ?_, ?_, ?_⟩
  · have hmem : r ∈ isrSaved.reverse := by
      cases r with
      | rsp => exact absurd rfl hr
      | _ => decide
    exact hpopped.regs (n := 7) hstack hmem
  · rw [hpopped.rsp_eq, hrsp]
    simp only [isrSaved, List.length_reverse, List.length_cons, List.length_nil]
    bv_omega
  · rw [hpopped.stack 5]
    exact congrArg (List.drop 17) hstack

theorem regs_isr
    (hret : Returned 22 ((i.deliver c).handed callee next (isr vec i.errorCode.isSome))
      (callee ((i.deliver c).handed callee next (isr vec i.errorCode.isSome)))) :
    let x := (i.deliver c).exec callee next (isr vec i.errorCode.isSome)
    (∀ r ≠ rsp, x.regs r = c.regs r) ∧ x.regs rsp = i.top - 40 ∧ x.stack 5 = i.saved c := by
  have hnotMem := rsp_notMem_isrSaved
  rw [handed_isr] at hret
  rw [exec_isr, exec_framed hnotMem]
  have hsaved : isrSaved.map (i.common c vec).regs = isrSaved.map c.regs :=
    List.map_congr_left fun r hr ↦ common_regs (by rintro rfl; exact hnotMem hr)
  have hstack := hret.stack_framed hnotMem (n := 7) (by decide)
  have hrsp := hret.rsp_framed hnotMem
  rw [hsaved, stack_common] at hstack
  rw [common_rsp] at hrsp
  refine exec_isrExit hstack (hrsp.trans ?_)
  simp only [isrSaved, List.length_cons, List.length_nil]
  bv_omega

/-! ## The stubs hand over and restore -/

/-- **Entry stubs hand over and restore the interrupted state.** A system call dispatches on the
registers of its caller, and gives them back but for the result. An exception, of any vector, with
or without an error code from the processor, passes on the frame of what it interrupted; if the
dispatcher returned, `iretq` would find every register as it was, and the words that the processor
pushed on top of the stack. -/
theorem trap_entry (callee : EntryCpu → EntryCpu) (next : Word) (c : EntryCpu) :
    (let e := c.handed callee next syscallEntry
     SyscallFrame.load e.mem (e.regs rdi) = syscallFrameOf c ∧
      syscallHandler (SyscallFrame.load e.mem (e.regs rdi)) = dispatch (c.regs rax) (c.regs rdi)
        (c.regs rsi) (c.regs rdx) (c.regs r10) (c.regs r8) (c.regs r9) ∧
      (Returned 9 e (callee e) → ∀ r ≠ rax, (c.exec callee next syscallEntry).regs r = c.regs r)) ∧
    ∀ (vec : ℕ) (hvec : vec < handlers.length) (i : Interrupted),
      (i.errorCode.isSome ↔ PushesErrorCode vec) →
      let e := (i.deliver c).handed callee next handlers[vec]
      let x := (i.deliver c).exec callee next handlers[vec]
      InterruptFrame.load e.mem (e.regs rdi) = i.frame c (BitVec.ofNat 64 vec) ∧
      (Returned 22 e (callee e) →
        (∀ r ≠ rsp, x.regs r = c.regs r) ∧ x.regs rsp = i.top - 40 ∧ x.stack 5 = i.saved c) := by
  refine ⟨⟨load_syscallFrame, ?_, fun hret r ↦ regs_syscallEntry hret⟩, ?_⟩
  · rw [load_syscallFrame]
    rfl
  · intro vec hvec i herr
    have hstub : handlers[vec] = isr (BitVec.ofNat 64 vec) i.errorCode.isSome := by
      simp only [handlers_eq, List.getElem_map, List.getElem_range]
      rw [decide_eq_decide.mpr herr.symm, Bool.decide_coe]
    rw [hstub]
    exact ⟨load_interruptFrame, regs_isr⟩

/-- A processor in user code, about to fault or to make a system call. -/
def userCpu : EntryCpu where
  regs r := if r = rsp then 0x7000 else if r = rcx then 0x1002 else if r = rbx then 5 else 1
  rip := 0x1000
  cr3 := 0
  zf := false
  mem _ := 0
  gsBase := 0
  kernelGsBase := 0x8000

/-- With a handler that only returns, a `write` gives `rcx` back, and a page fault gives the
dispatcher its error code and the return address back to `iretq`. -/
theorem trap_entry_pageFault :
    let i : Interrupted := ⟨0x2b, 0x202, 0x23, 0x9000, some 4⟩
    let e := (i.deliver userCpu).handed (returns 0) 0x2000 handlers[14]
    let x := (i.deliver userCpu).exec (returns 0) 0x2000 handlers[14]
    (userCpu.exec (returns 0) 0x2000 syscallEntry).regs rcx = 0x1002 ∧
      (InterruptFrame.load e.mem (e.regs rdi)).errorCode = 4 ∧ x.regs rbx = 5 ∧
      x.stack 5 = [0x1000, 0x2b, 0x202, 0x7000, 0x23] := by
  intro i e x
  obtain ⟨⟨-, -, hcall⟩, hfault⟩ := trap_entry (returns 0) 0x2000 userCpu
  obtain ⟨hframe, hregs⟩ := hfault 14 (by decide) i (by decide)
  obtain ⟨hregs, -, hstack⟩ := hregs (returned_returns ..)
  exact ⟨hcall (returned_returns ..) rcx (by decide), congrArg InterruptFrame.errorCode hframe,
    hregs rbx (by decide), hstack⟩

end Zeroxos
