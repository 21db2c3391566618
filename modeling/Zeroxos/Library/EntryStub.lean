import Zeroxos.Library.X86
import Mathlib.Data.List.Nodup

/-!
# Entry stubs

The assembly between an event and the function that handles it builds a frame on the stack, passes
the stack pointer to the function, and takes the registers off the stack again. `EntryInstr` has the
instructions for that.

## Runs

A stub is run up to the instruction that leaves it; the function it calls is given as what it does
to the processor. `Returned` is what has to be known of it: the return address is off the stack, the
frame is as it was, and so are the registers that a function has to keep.

## The stack

A stack is spoken of as the list of its words, top first. `pushWords` puts words in front of the
list and `popRegs` takes them off it, and nothing else about memory is needed: addresses wrap, but
no frame is so large that it meets itself.
-/

namespace Zeroxos

open Reg

/-! ## Words of memory -/

namespace ByteMem

variable {m m' : ByteMem} {a b v : Word} {n k : ℕ}

/-- A store leaves a word alone that is at least a word away, either way round. -/
theorem read_write_of_far (h : 8 ≤ (b - a).toNat) (h' : 8 ≤ (a - b).toNat) :
    (m.write a v).read b = m.read b := by
  have hbyte : ∀ k : Word, k.toNat < 8 → m.write a v (b + k) = m (b + k) := by
    intro k hk
    have hout : ¬(b + k - a).toNat < 8 := by bv_omega
    rw [write, if_neg hout]
  rw [read, read, hbyte 7 (by decide), hbyte 6 (by decide), hbyte 5 (by decide),
    hbyte 4 (by decide), hbyte 3 (by decide), hbyte 2 (by decide), hbyte 1 (by decide),
    hbyte 0 (by decide)]

/-- The `n` words from `a` up. -/
def words (m : ByteMem) : ℕ → Word → List Word
  | 0, _ => []
  | n + 1, a => m.read a :: m.words n (a + 8)

theorem words_add (m : ByteMem) (k n : ℕ) (a : Word) :
    m.words (k + n) a = m.words k a ++ m.words n (a + BitVec.ofNat 64 (8 * k)) := by
  induction k generalizing a with
  | zero => simp [words]
  | succ k ih =>
    have haddr : a + 8 + BitVec.ofNat 64 (8 * k) = a + BitVec.ofNat 64 (8 * (k + 1)) := by
      bv_omega
    rw [Nat.add_right_comm, words, words, ih, haddr, List.cons_append]

theorem words_length (m : ByteMem) (n : ℕ) (a : Word) : (m.words n a).length = n := by
  induction n generalizing a with
  | zero => rfl
  | succ n ih => rw [words, List.length_cons, ih]

theorem words_write (m : ByteMem) (v : Word) (h : 8 * (n + 1) ≤ 2 ^ 64) :
    (m.write (a - 8) v).words n a = m.words n a := by
  have hfrom : ∀ k, 8 * (k + n + 1) ≤ 2 ^ 64 →
      (m.write (a - 8) v).words n (a + BitVec.ofNat 64 (8 * k))
        = m.words n (a + BitVec.ofNat 64 (8 * k)) := by
    clear h
    induction n with
    | zero => exact fun _ _ ↦ rfl
    | succ n ih =>
      intro k hk
      have haddr : a + BitVec.ofNat 64 (8 * k) + 8 = a + BitVec.ofNat 64 (8 * (k + 1)) := by
        bv_omega
      rw [words, words, read_write_of_far (by bv_omega) (by bv_omega), haddr,
        ih (k + 1) (by omega)]
  simpa using hfrom 0 (by omega)

end ByteMem

/-! ## The stack -/

namespace Cpu

variable {c : Cpu} {n : ℕ} {v : Word} {l : List Word} {rs : List Reg} {r : Reg}

/-- The `n` words at the top of the stack. -/
def stack (c : Cpu) (n : ℕ) : List Word := c.mem.words n (c.regs rsp)

/-- Push words, the first one first. -/
def pushWords (c : Cpu) (l : List Word) : Cpu := l.foldl pushWord c

/-- Pop registers, the first one first. -/
def popRegs (c : Cpu) (rs : List Reg) : Cpu := rs.foldl (fun c r ↦ c.step (.pop r)) c

@[simp] theorem set_self : (c.set r v).regs r = v := by
  simp only [set, Function.update_self]

theorem set_of_ne {r' : Reg} (h : r' ≠ r) : (c.set r v).regs r' = c.regs r' := by
  simp only [set, Function.update_of_ne h]

@[simp] theorem pushWord_rsp : (c.pushWord v).regs rsp = c.regs rsp - 8 := by
  simp only [pushWord, Function.update_self]

theorem pushWord_regs (h : r ≠ rsp) : (c.pushWord v).regs r = c.regs r := by
  simp only [pushWord, Function.update_of_ne h]

theorem stack_pushWord (h : 8 * (n + 1) ≤ 2 ^ 64) :
    (c.pushWord v).stack (n + 1) = v :: c.stack n := by
  rw [stack, pushWord_rsp, ByteMem.words, BitVec.sub_add_cancel]
  exact congrArg₂ _ (ByteMem.read_write _ _ _) (ByteMem.words_write _ _ h)

theorem stack_pushWords (h : 8 * (l.length + n) ≤ 2 ^ 64) :
    (c.pushWords l).stack (l.length + n) = l.reverse ++ c.stack n := by
  induction l generalizing c n with
  | nil => rw [List.length_nil, Nat.zero_add]; rfl
  | cons v l ih =>
    rw [List.length_cons] at h ⊢
    have hrest := ih (c := c.pushWord v) (n := n + 1) (by omega)
    rw [stack_pushWord (by omega)] at hrest
    rw [List.reverse_cons, List.append_assoc, List.singleton_append, ← hrest,
      Nat.add_right_comm, Nat.add_assoc]
    rfl

theorem pushWords_rsp : (c.pushWords l).regs rsp = c.regs rsp - BitVec.ofNat 64 (8 * l.length) := by
  induction l generalizing c with
  | nil => simp [pushWords]
  | cons v l ih =>
    have hrest : (c.pushWords (v :: l)).regs rsp = _ := ih (c := c.pushWord v)
    rw [hrest, pushWord_rsp, List.length_cons]
    bv_omega

theorem pushWords_regs (h : r ≠ rsp) : (c.pushWords l).regs r = c.regs r := by
  induction l generalizing c with
  | nil => rfl
  | cons v l ih => exact (ih (c := c.pushWord v)).trans (pushWord_regs h)

private theorem pop_rsp (hr : r ≠ rsp) : (c.step (.pop r)).regs rsp = c.regs rsp + 8 := by
  rw [step, set_of_ne hr.symm, set_self]

private theorem pop_self : (c.step (.pop r)).regs r = c.mem.read (c.regs rsp) := by
  rw [step, set_self]

private theorem pop_regs {r' : Reg} (hr : r' ≠ r) (hrsp : r' ≠ rsp) :
    (c.step (.pop r)).regs r' = c.regs r' := by
  rw [step, set_of_ne hr, set_of_ne hrsp]

@[simp] theorem popRegs_mem : (c.popRegs rs).mem = c.mem := by
  induction rs generalizing c with
  | nil => rfl
  | cons r rs ih => exact ih (c := c.step (.pop r))

theorem popRegs_rsp (h : rsp ∉ rs) :
    (c.popRegs rs).regs rsp = c.regs rsp + BitVec.ofNat 64 (8 * rs.length) := by
  induction rs generalizing c with
  | nil => simp [popRegs]
  | cons r rs ih =>
    obtain ⟨hr, hrs⟩ := List.ne_and_not_mem_of_not_mem_cons h
    have hrest : (c.popRegs (r :: rs)).regs rsp = _ := ih (c := c.step (.pop r)) hrs
    rw [hrest, pop_rsp hr.symm, List.length_cons]
    bv_omega

theorem popRegs_regs (hr : r ∉ rs) (hrsp : r ≠ rsp) : (c.popRegs rs).regs r = c.regs r := by
  induction rs generalizing c with
  | nil => rfl
  | cons r' rs ih =>
    obtain ⟨hne, hrs⟩ := List.ne_and_not_mem_of_not_mem_cons hr
    exact (ih hrs (c := c.step (.pop r'))).trans (pop_regs hne hrsp)

theorem map_popRegs (h : rsp ∉ rs) (hnodup : rs.Nodup) :
    rs.map (c.popRegs rs).regs = c.stack rs.length := by
  induction rs generalizing c with
  | nil => rfl
  | cons r rs ih =>
    obtain ⟨hr, hrs⟩ := List.ne_and_not_mem_of_not_mem_cons h
    obtain ⟨hnotin, hnodup⟩ := List.nodup_cons.mp hnodup
    have hrest := ih hrs hnodup (c := c.step (.pop r))
    rw [stack, pop_rsp hr.symm] at hrest
    have hself : (c.popRegs (r :: rs)).regs r = c.mem.read (c.regs rsp) :=
      (popRegs_regs hnotin hr.symm (c := c.step (.pop r))).trans pop_self
    rw [List.map_cons, hself, List.length_cons, stack, ByteMem.words]
    exact congrArg _ hrest

theorem stack_eq_take (k n : ℕ) : c.stack k = (c.stack (k + n)).take k := by
  rw [stack, stack, ByteMem.words_add, List.take_left' (ByteMem.words_length ..)]

theorem words_eq_drop (k n : ℕ) :
    c.mem.words n (c.regs rsp + BitVec.ofNat 64 (8 * k)) = (c.stack (k + n)).drop k := by
  rw [stack, ByteMem.words_add, List.drop_left' (ByteMem.words_length ..)]

end Cpu

/-! ## Stubs -/

/-- The processor with the two bases that `swapgs` exchanges. -/
structure EntryCpu extends Cpu where
  gsBase : Word
  kernelGsBase : Word

/-- The instructions of a stub. -/
inductive EntryInstr
  | push (src : Reg)
  | pushImm (v : Word)
  | pop (dst : Reg)
  | mov (dst src : Reg)
  | addImm (dst : Reg) (v : Word)
  | swapgs
  /-- `call` of the function that the stub is for. -/
  | call
  | sysretq
  | iretq
deriving DecidableEq

namespace EntryCpu

variable (callee : EntryCpu → EntryCpu) (next : Word)

/-- The processor after its registers and its memory have changed. -/
def withCpu (c : EntryCpu) (cpu : Cpu) : EntryCpu := { c with toCpu := cpu }

/-- What the function finds that is called. `next` is the address of the instruction behind the
call. -/
def entered (c : EntryCpu) : EntryCpu := c.withCpu (c.toCpu.pushWord next)

/-- The effect of one instruction. -/
def step (c : EntryCpu) : EntryInstr → EntryCpu
  | .push src => c.withCpu (c.toCpu.step (.push src))
  | .pushImm v => c.withCpu (c.toCpu.pushWord v)
  | .pop dst => c.withCpu (c.toCpu.step (.pop dst))
  | .mov dst src => c.withCpu (c.toCpu.set dst (c.regs src))
  | .addImm dst v => c.withCpu { c.toCpu.set dst (c.regs dst + v) with zf := c.regs dst + v == 0 }
  | .swapgs => { c with gsBase := c.kernelGsBase, kernelGsBase := c.gsBase }
  | .call => callee (c.entered next)
  | .sysretq => c
  | .iretq => c

/-- Run a stub, up to the instruction that leaves it. -/
def exec : List EntryInstr → EntryCpu → EntryCpu
  | [], c => c
  | .sysretq :: _, c => c
  | .iretq :: _, c => c
  | i :: code, c => exec code (c.step callee next i)

/-- The processor when the function is entered. -/
def handed (code : List EntryInstr) (c : EntryCpu) : EntryCpu :=
  (c.exec callee next (code.takeWhile (· ≠ .call))).entered next

variable {callee next} {code : List EntryInstr} {c : EntryCpu} {rs : List Reg}

/-- Code that does not leave the stub hands the processor to what follows it. -/
theorem exec_append (hsysret : .sysretq ∉ code) (hiret : .iretq ∉ code) (rest : List EntryInstr)
    (c : EntryCpu) :
    exec callee next (code ++ rest) c = exec callee next rest (exec callee next code c) := by
  induction code generalizing c with
  | nil => rfl
  | cons i code ih =>
    obtain ⟨hi, hsysret'⟩ := List.ne_and_not_mem_of_not_mem_cons hsysret
    obtain ⟨hi', hiret'⟩ := List.ne_and_not_mem_of_not_mem_cons hiret
    cases i with
    | sysretq => exact absurd rfl hi
    | iretq => exact absurd rfl hi'
    | _ => exact ih hsysret' hiret' _

theorem exec_pushes (h : rsp ∉ rs) : exec callee next (rs.map .push) c
    = c.withCpu (c.toCpu.pushWords (rs.map c.regs)) := by
  induction rs generalizing c with
  | nil => rfl
  | cons r rs ih =>
    obtain ⟨hr, hrs⟩ := List.ne_and_not_mem_of_not_mem_cons h
    have hregs : rs.map (c.toCpu.pushWord (c.regs r)).regs = rs.map c.regs :=
      List.map_congr_left fun r' hr' ↦ Cpu.pushWord_regs (by rintro rfl; exact hrs hr')
    have hrest := ih hrs (c := c.withCpu (c.toCpu.pushWord (c.regs r)))
    exact hrest.trans (congrArg (fun l ↦ c.withCpu ((c.toCpu.pushWord (c.regs r)).pushWords l))
      hregs)

theorem exec_pops : exec callee next (rs.map .pop) c = c.withCpu (c.toCpu.popRegs rs) := by
  induction rs generalizing c with
  | nil => rfl
  | cons r rs ih => exact ih (c := c.withCpu (c.toCpu.step (.pop r)))

/-! ### Frames -/

/-- A stub that saves registers and passes the address of the frame to its function. -/
def framed (saved : List Reg) (rest : List EntryInstr) : List EntryInstr :=
  saved.map .push ++ .mov rdi rsp :: .call :: rest

variable {saved : List Reg} {rest : List EntryInstr}

/-- The processor when a function is entered that is passed the stack pointer. -/
theorem handed_framed (h : rsp ∉ saved) : handed callee next (framed saved rest) c
    = ((c.withCpu (c.toCpu.pushWords (saved.map c.regs))).step callee next (.mov rdi rsp)).entered
      next := by
  have hcode : (framed saved rest).takeWhile (· ≠ .call) = saved.map .push ++ [.mov rdi rsp] := by
    rw [framed, List.takeWhile_append_of_pos (by simp)]
    rfl
  rw [handed, hcode, exec_append (by simp) (by simp), exec_pushes h]
  rfl

theorem exec_framed (h : rsp ∉ saved) : exec callee next (framed saved rest) c
    = exec callee next rest (callee (handed callee next (framed saved rest) c)) := by
  rw [handed_framed h, framed, exec_append (by simp) (by simp), exec_pushes h]
  rfl

theorem handed_rdi (h : rsp ∉ saved) : (handed callee next (framed saved rest) c).regs rdi
    = c.regs rsp - BitVec.ofNat 64 (8 * saved.length) := by
  have hpushed : (handed callee next (framed saved rest) c).regs rdi
      = (c.toCpu.pushWords (saved.map c.regs)).regs rsp := by
    rw [handed_framed h]
    exact (Cpu.pushWord_regs (by decide)).trans Cpu.set_self
  rw [hpushed, Cpu.pushWords_rsp, List.length_map]

theorem handed_rsp (h : rsp ∉ saved) : (handed callee next (framed saved rest) c).regs rsp
    = (handed callee next (framed saved rest) c).regs rdi - 8 := by
  have hpushed : (handed callee next (framed saved rest) c).regs rsp
      = (c.toCpu.pushWords (saved.map c.regs)).regs rsp - 8 := by
    rw [handed_framed h]
    exact Cpu.pushWord_rsp.trans (congrArg (· - 8) (Cpu.set_of_ne (by decide)))
  rw [hpushed, handed_rdi h, Cpu.pushWords_rsp, List.length_map]

theorem handed_regs (h : rsp ∉ saved) {r : Reg} (hrsp : r ≠ rsp) (hrdi : r ≠ rdi) :
    (handed callee next (framed saved rest) c).regs r = c.regs r := by
  rw [handed_framed h]
  exact (Cpu.pushWord_regs hrsp).trans ((Cpu.set_of_ne hrdi).trans (Cpu.pushWords_regs hrsp))

variable (callee next rest) in
/-- The frame that the function is passed: the saved registers, the last one first, over what was
on the stack. -/
theorem words_handed (h : rsp ∉ saved) {n : ℕ} (hn : 8 * (saved.length + n + 1) ≤ 2 ^ 64) :
    (handed callee next (framed saved rest) c).mem.words (saved.length + n)
      ((handed callee next (framed saved rest) c).regs rdi)
        = (saved.map c.regs).reverse ++ c.stack n := by
  have hmem : (handed callee next (framed saved rest) c).mem
      = (c.toCpu.pushWords (saved.map c.regs)).mem.write
        ((c.toCpu.pushWords (saved.map c.regs)).regs rsp - 8) next := by
    rw [handed_framed h]
    rfl
  have hrdi : (handed callee next (framed saved rest) c).regs rdi
      = (c.toCpu.pushWords (saved.map c.regs)).regs rsp := by
    rw [handed_rdi h, Cpu.pushWords_rsp, List.length_map]
  rw [hmem, hrdi, ByteMem.words_write _ _ hn]
  have hstack := c.toCpu.stack_pushWords (l := saved.map c.regs) (n := n)
    (by rw [List.length_map]; omega)
  rwa [List.length_map] at hstack

/-! ### Return -/

/-- The registers that the System V calling convention has a function keep. -/
def calleeSaved : List Reg := [rbx, rbp, r12, r13, r14, r15]

/-- A function that was entered in the state `e` returned in the state `d` by the calling
convention, and did not change the frame of `n` words that it was passed. -/
structure Returned (n : ℕ) (e d : EntryCpu) : Prop where
  /-- The return address is off the stack. -/
  rsp_eq : d.regs rsp = e.regs rsp + 8
  kept : ∀ r ∈ calleeSaved, d.regs r = e.regs r
  frame : d.mem.words n (e.regs rdi) = e.mem.words n (e.regs rdi)

variable {d : EntryCpu} {n : ℕ}

theorem Returned.rsp_framed (h : rsp ∉ saved)
    (hret : Returned n (handed callee next (framed saved rest) c) d) :
    d.regs rsp = c.regs rsp - BitVec.ofNat 64 (8 * saved.length) := by
  rw [hret.rsp_eq, handed_rsp h, BitVec.sub_add_cancel, handed_rdi h]

theorem Returned.stack_framed (h : rsp ∉ saved) (hn : 8 * (saved.length + n + 1) ≤ 2 ^ 64)
    (hret : Returned (saved.length + n) (handed callee next (framed saved rest) c) d) :
    d.stack (saved.length + n) = (saved.map c.regs).reverse ++ c.stack n := by
  rw [Cpu.stack, hret.rsp_eq, handed_rsp h, BitVec.sub_add_cancel, hret.frame,
    words_handed _ _ _ h hn]

theorem Returned.regs_framed (h : rsp ∉ saved)
    (hret : Returned n (handed callee next (framed saved rest) c) d) {r : Reg}
    (hr : r ∈ calleeSaved) : d.regs r = c.regs r := by
  have hne : rsp ∉ calleeSaved ∧ rdi ∉ calleeSaved := by decide
  rw [hret.kept r hr, handed_regs h (by rintro rfl; exact hne.1 hr) (by rintro rfl; exact hne.2 hr)]

/-- A function that does nothing but return a value. -/
def returns (v : Word) (e : EntryCpu) : EntryCpu := e.withCpu ((e.toCpu.step .ret).set rax v)

theorem returned_returns (n : ℕ) (v : Word) (e : EntryCpu) : Returned n e (returns v e) where
  rsp_eq := by simp only [returns, withCpu, Cpu.step, Cpu.set_of_ne (by decide : rsp ≠ rax),
    Cpu.set_self]
  kept := by
    have hne : ∀ r ∈ calleeSaved, r ≠ rax ∧ r ≠ rsp := by decide
    exact fun r hr ↦ (Cpu.set_of_ne (hne r hr).1).trans (Cpu.set_of_ne (hne r hr).2)
  frame := rfl

/-- Registers were popped, and `k` words after them dropped. -/
structure Popped (rs : List Reg) (k : ℕ) (d d' : EntryCpu) : Prop where
  popped : rs.map d'.regs = d.stack rs.length
  rsp_eq : d'.regs rsp = d.regs rsp + BitVec.ofNat 64 (8 * (rs.length + k))
  kept : ∀ r ∉ rs, r ≠ rsp → d'.regs r = d.regs r
  mem_eq : d'.mem = d.mem

variable (callee next rs) in
theorem exec_pops_append (h : rsp ∉ rs) (hnodup : rs.Nodup) (code : List EntryInstr)
    (d : EntryCpu) : ∃ d', exec callee next (rs.map .pop ++ code) d = exec callee next code d' ∧
      Popped rs 0 d d' := by
  refine ⟨d.withCpu (d.toCpu.popRegs rs), ?_, Cpu.map_popRegs h hnodup, Cpu.popRegs_rsp h,
    fun _ ↦ Cpu.popRegs_regs, Cpu.popRegs_mem⟩
  rw [exec_append (by simp) (by simp), exec_pops]

variable (callee next rs) in
theorem exec_pops_drop (h : rsp ∉ rs) (hnodup : rs.Nodup) (k : ℕ) (code : List EntryInstr)
    (d : EntryCpu) :
    ∃ d', exec callee next (rs.map .pop ++ .addImm rsp (BitVec.ofNat 64 (8 * k)) :: code) d
      = exec callee next code d' ∧ Popped rs k d d' := by
  obtain ⟨d', hexec, hpopped⟩ := exec_pops_append callee next rs h hnodup
    (.addImm rsp (BitVec.ofNat 64 (8 * k)) :: code) d
  have hregs : ∀ r ≠ rsp, (d'.step callee next (.addImm rsp (BitVec.ofNat 64 (8 * k)))).regs r
      = d'.regs r := fun r hr ↦ Cpu.set_of_ne hr
  refine ⟨d'.step callee next (.addImm rsp (BitVec.ofNat 64 (8 * k))), hexec, ?_, ?_, ?_,
    hpopped.mem_eq⟩
  · have hmap : rs.map (d'.step callee next (.addImm rsp (BitVec.ofNat 64 (8 * k)))).regs
        = rs.map d'.regs :=
      List.map_congr_left fun r hr ↦ hregs r (by rintro rfl; exact h hr)
    exact hmap.trans hpopped.popped
  · have hrsp : (d'.step callee next (.addImm rsp (BitVec.ofNat 64 (8 * k)))).regs rsp
        = d'.regs rsp + BitVec.ofNat 64 (8 * k) := by
      simp only [step, withCpu, Cpu.set_self]
    rw [hrsp, hpopped.rsp_eq]
    bv_omega
  · exact fun r hr hrsp ↦ (hregs r hrsp).trans (hpopped.kept r hr hrsp)

variable {d' : EntryCpu} {k : ℕ} {l : List Word}

theorem Popped.regs (h : Popped rs k d d') (hstack : d.stack (rs.length + n) = rs.map c.regs ++ l)
    (hr : r ∈ rs) : d'.regs r = c.regs r := by
  have hmap : rs.map d'.regs = rs.map c.regs := by
    rw [h.popped, Cpu.stack_eq_take _ n, hstack, List.take_left' (List.length_map ..)]
  exact List.map_inj_left.mp hmap r hr

theorem Popped.stack (h : Popped rs k d d') (n : ℕ) :
    d'.stack n = (d.stack (rs.length + k + n)).drop (rs.length + k) := by
  rw [Cpu.stack, h.mem_eq, h.rsp_eq, Cpu.words_eq_drop]

end EntryCpu

end Zeroxos
