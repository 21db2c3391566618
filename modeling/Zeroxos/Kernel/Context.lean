import Zeroxos.Library.X86

/-!
# Context switches

`arch/x86_64/context.rs`. A task that is not running is a stack pointer and a page-table root; its
callee-saved registers and the address it continues at are on its own stack, in the seven words
above that pointer. `switch_to` is the assembly of the source, instruction by instruction, and
`init_kernel_task` lays down by hand the frame that `switch_to` would have pushed.

## What a call does

The listing is run in three parts, the pushes, the choice of a page-table root and the pops
(`saveCode`, `spaceCode`, `restoreCode`), and `call_switchTo` puts them together: memory is then
`Cpu.saved`, and the processor comes back with what the context of `next` leads to. Nothing is
assumed of where stacks and contexts are; that they are apart is the business of a schedule.
-/

namespace Zeroxos

open Reg

/-- `TaskContext`: what is kept of a task between switches. -/
structure TaskContext where
  /-- The saved stack pointer. -/
  rsp : Word
  /-- The page-table root. -/
  cr3 : Word
deriving DecidableEq

def TaskContext.empty : TaskContext := ⟨0, 0⟩

/-- The context in memory at an address: `#[repr(C)]` puts `rsp` at offset 0 and `cr3` at 8. -/
def ByteMem.readContext (m : ByteMem) (a : Word) : TaskContext := ⟨m.read (a + 0), m.read (a + 8)⟩

/-- Store a context at an address. -/
def ByteMem.writeContext (m : ByteMem) (a : Word) (ctx : TaskContext) : ByteMem :=
  (m.write (a + 0) ctx.rsp).write (a + 8) ctx.cr3

/-- `SAVED_REGS`: how many registers `switch_to` pushes. -/
def savedRegs : ℕ := 6

/-- `init_kernel_task`: the memory with the forged frame, and the context of the task. -/
def initKernelTask (m : ByteMem) (stackTop entry cr3 : Word) : ByteMem × TaskContext :=
  let retSlot := stackTop - 8
  let m := m.write retSlot entry
  let regs := stackTop - BitVec.ofNat 64 (8 * (savedRegs + 1))
  let m := (List.range savedRegs).foldl (fun m i ↦ m.write (regs + BitVec.ofNat 64 (i * 8)) 0) m
  (m, ⟨regs, cr3⟩)

/-- `switch_to(prev = rdi, next = rsi)`, as it is written in the source. -/
def switchTo : List Instr :=
  [ -- the callee-saved registers go onto the stack of `prev`
    .push rbp, .push rbx, .push r12, .push r13, .push r14, .push r15,
    .store rdi 0 rsp,
    -- `mov cr3` only when the address space differs
    .load rax rsi 8, .readCr3 rcx, .cmp rax rcx, .je 1, .writeCr3 rax,
    .load rsp rsi 0,
    .pop r15, .pop r14, .pop r13, .pop r12, .pop rbx, .pop rbp,
    .ret ]

/-! ## Frames -/

/-- What `switch_to` restores from a stack: six registers, and where to go on. -/
structure Frame where
  (r15 r14 r13 r12 rbx rbp ret : Word)
deriving DecidableEq

/-- The frame in the seven words from `sp` up. -/
def ByteMem.frame (m : ByteMem) (sp : Word) : Frame :=
  ⟨m.read sp, m.read (sp + 8), m.read (sp + 16), m.read (sp + 24), m.read (sp + 32),
    m.read (sp + 40), m.read (sp + 48)⟩

/-- The callee-saved registers and the instruction pointer. -/
def Cpu.frame (c : Cpu) : Frame :=
  ⟨c.regs r15, c.regs r14, c.regs r13, c.regs r12, c.regs rbx, c.regs rbp, c.rip⟩

/-- The memory when `switch_to`, called with `next` as the return address, has saved `prev`. -/
def Cpu.saved (c : Cpu) (next : Word) : ByteMem :=
  (((((((c.mem.write (c.regs rsp - 8) next).write (c.regs rsp - 16) (c.regs rbp)).write
    (c.regs rsp - 24) (c.regs rbx)).write (c.regs rsp - 32) (c.regs r12)).write
    (c.regs rsp - 40) (c.regs r13)).write (c.regs rsp - 48) (c.regs r14)).write
    (c.regs rsp - 56) (c.regs r15)).write (c.regs rdi + 0) (c.regs rsp - 56)

theorem ByteMem.AgreeOn.frame_eq {m m' : ByteMem} {S : Span} {sp : Word}
    (h : ByteMem.AgreeOn m m' S) (hsp : (⟨sp.toNat, 56⟩ : Span).Within S)
    (hS : S.base + S.len ≤ 2 ^ 64) : m.frame sp = m'.frame sp := by
  have hslot : ∀ k : Word, k.toNat ≤ 48 → m.read (sp + k) = m'.read (sp + k) := by
    intro k hk
    refine h.read_eq ?_ hS
    have hlow : S.base ≤ sp.toNat := hsp.1
    have hhigh : sp.toNat + 56 ≤ S.base + S.len := hsp.2
    have hadd : (sp + k).toNat = sp.toNat + k.toNat := BitVec.toNat_add_of_lt (by omega)
    rw [Span.Within, wordSpan, hadd]
    dsimp only
    omega
  have hzero : m.read sp = m'.read sp := by simpa using hslot 0 (by decide)
  rw [ByteMem.frame, ByteMem.frame, hzero, hslot 8 (by decide), hslot 16 (by decide),
    hslot 24 (by decide), hslot 32 (by decide), hslot 40 (by decide), hslot 48 (by decide)]

private theorem sub_add_word (a x y : Word) : a - x + y = a - (x - y) := by
  bv_omega

private theorem sub_sub_word (a x y : Word) : a - x - y = a - (x + y) := by
  bv_omega

section Slots

/-! Both ways of making a frame fill the seven words below an address. -/

variable {m : ByteMem} {top i j v : Word}

private theorem toNat_slot (hroom : 56 ≤ top.toNat) (hi : i.toNat ≤ 56) :
    (top - i).toNat = top.toNat - i.toNat :=
  BitVec.toNat_sub_of_le (by rw [BitVec.le_def]; omega)

private theorem write_slot_agreeOn {S : Span} (hroom : 56 ≤ top.toNat) (hi : i.toNat ≤ 56)
    (hi' : 8 ≤ i.toNat) (hS : (⟨top.toNat - 56, 56⟩ : Span).Apart 0 S) :
    ByteMem.AgreeOn (m.write (top - i) v) m S := by
  have hslot := toNat_slot hroom hi
  refine ByteMem.write_agreeOn m v (by omega) (hS.of_within_left ?_)
  rw [Span.Within, wordSpan, hslot]
  dsimp only
  omega

private theorem read_slot (hroom : 56 ≤ top.toNat) (hi : i.toNat ≤ 56) (hi' : 8 ≤ i.toNat)
    (hj : j.toNat ≤ 56) (hj' : 8 ≤ j.toNat)
    (hij : i.toNat + 8 ≤ j.toNat ∨ j.toNat + 8 ≤ i.toNat) :
    (m.write (top - i) v).read (top - j) = m.read (top - j) := by
  have hslot := toNat_slot hroom hi
  have hslot' := toNat_slot hroom hj
  refine ByteMem.read_write_of_apart (by omega) (by omega) ?_
  rw [wordSpan, wordSpan, Span.Apart, hslot, hslot']
  dsimp only
  omega

private theorem frame_slots :
    m.frame (top - 56) = ⟨m.read (top - 56), m.read (top - 48), m.read (top - 40),
      m.read (top - 32), m.read (top - 24), m.read (top - 16), m.read (top - 8)⟩ := by
  simp [ByteMem.frame, sub_add_word]

end Slots

/-! ## What a call does -/

section Call

variable (c : Cpu) (next : Word)

private def saveCode : List Instr :=
  [.push rbp, .push rbx, .push r12, .push r13, .push r14, .push r15, .store rdi 0 rsp]

private def restoreCode : List Instr :=
  [.load rsp rsi 0, .pop r15, .pop r14, .pop r13, .pop r12, .pop rbx, .pop rbp, .ret]

private def spaceCode : List Instr :=
  [.load rax rsi 8, .readCr3 rcx, .cmp rax rcx, .je 1, .writeCr3 rax]

private theorem exec_saveCode :
    Cpu.exec saveCode 0 (c.pushWord next)
      = { c with regs := Function.update c.regs rsp (c.regs rsp - 56), mem := c.saved next } := by
  simp [saveCode, Cpu.exec, Cpu.step, Cpu.pushWord, Cpu.saved, sub_sub_word]

/-- Whether or not the jump is taken, the page-table root is then the one of `next`. -/
private theorem exec_spaceCode (rest : List Instr) :
    ∃ zf v w, Cpu.exec (spaceCode ++ rest) 0 c
      = Cpu.exec rest 0 { c with
          regs := Function.update (Function.update c.regs rax v) rcx w
          cr3 := c.mem.read (c.regs rsi + 8)
          zf := zf } := by
  refine ⟨c.mem.read (c.regs rsi + 8) == c.cr3, c.mem.read (c.regs rsi + 8), c.cr3, ?_⟩
  by_cases h : c.mem.read (c.regs rsi + 8#64) = c.cr3
  · simp [spaceCode, Cpu.exec, Cpu.step, Cpu.set, h]
  · simp [spaceCode, Cpu.exec, Cpu.step, Cpu.set, h]

private theorem exec_restoreCode :
    (Cpu.exec restoreCode 0 c).frame = c.mem.frame (c.mem.read (c.regs rsi + 0))
      ∧ (Cpu.exec restoreCode 0 c).regs rsp = c.mem.read (c.regs rsi + 0) + 56
      ∧ (Cpu.exec restoreCode 0 c).mem = c.mem ∧ (Cpu.exec restoreCode 0 c).cr3 = c.cr3 := by
  simp [restoreCode, Cpu.exec, Cpu.step, Cpu.set, Cpu.frame, ByteMem.frame,
    BitVec.add_assoc]

/-- **What `switch_to` does.** It saves the caller in memory and comes back with the context in
`next`: its page-table root, the frame its stack pointer leads to, and the stack above that
frame. -/
theorem call_switchTo :
    (c.call switchTo next).mem = c.saved next
      ∧ (c.call switchTo next).cr3 = ((c.saved next).readContext (c.regs rsi)).cr3
      ∧ (c.call switchTo next).frame
        = (c.saved next).frame ((c.saved next).readContext (c.regs rsi)).rsp
      ∧ (c.call switchTo next).regs rsp
        = ((c.saved next).readContext (c.regs rsi)).rsp + 56 := by
  have hsplit : switchTo = saveCode ++ (spaceCode ++ restoreCode) := rfl
  have hjumps : ∀ n, .je n ∉ saveCode := by
    intro n h
    simp [saveCode] at h
  rw [Cpu.call, hsplit, Cpu.exec_append hjumps, exec_saveCode]
  obtain ⟨zf, v, w, hspace⟩ := exec_spaceCode
    { c with regs := Function.update c.regs rsp (c.regs rsp - 56), mem := c.saved next } restoreCode
  rw [hspace]
  obtain ⟨hframe, hrsp, hmem, hcr3⟩ := exec_restoreCode _
  rw [hframe, hrsp, hmem, hcr3]
  simp [ByteMem.readContext]

variable {c} {next : Word}

theorem saved_rsp : (c.saved next).read (c.regs rdi + 0) = c.regs rsp - 56 :=
  ByteMem.read_write _ _ _

/-- The caller writes seven words below its stack pointer and one into its context. -/
theorem saved_agreeOn {S : Span} (hroom : 56 ≤ (c.regs rsp).toNat)
    (hctx : (c.regs rdi).toNat + 8 ≤ 2 ^ 64) (hS : (wordSpan (c.regs rdi)).Apart 0 S)
    (hstack : (⟨(c.regs rsp).toNat - 56, 56⟩ : Span).Apart 0 S) :
    ByteMem.AgreeOn (c.saved next) c.mem S := by
  have hslot : ∀ (m : ByteMem) (i v : Word), i.toNat ≤ 56 → 8 ≤ i.toNat →
      ByteMem.AgreeOn (m.write (c.regs rsp - i) v) m S :=
    fun m i v hi hi' ↦ write_slot_agreeOn hroom hi hi' hstack
  rw [Cpu.saved]
  refine (ByteMem.write_agreeOn _ _ (by simpa using hctx) (by simpa using hS)).trans ?_
  refine (hslot _ 56 _ (by decide) (by decide)).trans ?_
  refine (hslot _ 48 _ (by decide) (by decide)).trans ?_
  refine (hslot _ 40 _ (by decide) (by decide)).trans ?_
  refine (hslot _ 32 _ (by decide) (by decide)).trans ?_
  refine (hslot _ 24 _ (by decide) (by decide)).trans ?_
  refine (hslot _ 16 _ (by decide) (by decide)).trans ?_
  exact hslot _ 8 _ (by decide) (by decide)

theorem saved_frame (hroom : 56 ≤ (c.regs rsp).toNat) (hctx : (c.regs rdi).toNat + 8 ≤ 2 ^ 64)
    (hstack : (wordSpan (c.regs rdi)).Apart 0 ⟨(c.regs rsp).toNat - 56, 56⟩) :
    (c.saved next).frame (c.regs rsp - 56) = { c.frame with ret := next } := by
  have hsp : (c.regs rsp - 56).toNat = (c.regs rsp).toNat - 56 := toNat_slot hroom (le_refl 56)
  have hprev : ∀ m : ByteMem, (m.write (c.regs rdi + 0) (c.regs rsp - 56)).frame (c.regs rsp - 56)
      = m.frame (c.regs rsp - 56) := by
    intro m
    refine (ByteMem.write_agreeOn m _ (by simpa using hctx) (by simpa using hstack)).frame_eq ?_ ?_
    · rw [hsp]
      exact ⟨le_refl _, le_refl _⟩
    · dsimp only
      omega
  rw [Cpu.saved, hprev, frame_slots]
  simp (disch := decide) [Cpu.frame, read_slot hroom]

end Call

/-! ## The forged frame -/

section Forged

variable {m : ByteMem} {stackTop entry cr3 : Word}

theorem initKernelTask_context :
    (initKernelTask m stackTop entry cr3).2 = ⟨stackTop - 56, cr3⟩ := rfl

private theorem initKernelTask_mem :
    (initKernelTask m stackTop entry cr3).1
      = ((((((m.write (stackTop - 8) entry).write (stackTop - 56) 0).write (stackTop - 48) 0).write
        (stackTop - 40) 0).write (stackTop - 32) 0).write (stackTop - 24) 0).write
        (stackTop - 16) 0 := by
  simp [initKernelTask, savedRegs, List.range_succ, sub_add_word]

theorem initKernelTask_agreeOn {S : Span} (hroom : 56 ≤ stackTop.toNat)
    (hstack : (⟨stackTop.toNat - 56, 56⟩ : Span).Apart 0 S) :
    ByteMem.AgreeOn (initKernelTask m stackTop entry cr3).1 m S := by
  have hslot : ∀ (m : ByteMem) (i v : Word), i.toNat ≤ 56 → 8 ≤ i.toNat →
      ByteMem.AgreeOn (m.write (stackTop - i) v) m S :=
    fun m i v hi hi' ↦ write_slot_agreeOn hroom hi hi' hstack
  rw [initKernelTask_mem]
  refine (hslot _ 16 _ (by decide) (by decide)).trans ?_
  refine (hslot _ 24 _ (by decide) (by decide)).trans ?_
  refine (hslot _ 32 _ (by decide) (by decide)).trans ?_
  refine (hslot _ 40 _ (by decide) (by decide)).trans ?_
  refine (hslot _ 48 _ (by decide) (by decide)).trans ?_
  refine (hslot _ 56 _ (by decide) (by decide)).trans ?_
  exact hslot _ 8 _ (by decide) (by decide)

theorem initKernelTask_frame (hroom : 56 ≤ stackTop.toNat) :
    (initKernelTask m stackTop entry cr3).1.frame (stackTop - 56)
      = ⟨0, 0, 0, 0, 0, 0, entry⟩ := by
  rw [initKernelTask_mem, frame_slots]
  simp (disch := decide) [read_slot hroom]

end Forged

end Zeroxos
