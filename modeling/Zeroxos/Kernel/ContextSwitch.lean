import Zeroxos.Kernel.Context
import Zeroxos.Library.Transition

/-!
# Schedules of context switches

Any number of tasks share one processor, each on its own kernel stack and with its own context in
memory. The task that runs may do what it likes with the registers and its stack; it may create
another task, and it hands the processor over by calling `switch_to` with its own context first.

## The system

Next to the machine the system remembers, for every task that is not running, what a switch into it
has to bring back: for a fresh task the entry and an empty stack, for any other its state when it
called `switch_to`. Where stacks and contexts are is a `TaskLayout`, which carries that they are
apart.

## The invariant

Each of these is written, word for word, where the task's context points (`Inv`). A task writes only
its own stack and its own context, so an event of one task leaves what was saved of another, and a
switch reads it back (`switch_restores`).

## Address spaces

The stack comes back, but the address space need not: `switch_to` stores the stack pointer into
`prev` and nothing else. The context of the boot task starts out empty, and it still holds the
page-table root zero when the task is resumed for the first time. Every other task gets the root it
was created with, and after its first resumption so does the boot task, the root being the zero of
its context (`switch_restores_space_iff`).
-/

namespace Zeroxos

open Reg

variable {ι : Type*}

/-! ## Stacks and contexts -/

/-- Where the stacks and the contexts of the tasks are: all apart, and none over the top. -/
structure TaskLayout (ι : Type*) where
  stack : ι → Span
  /-- The address of the task's `TaskContext`. -/
  ctx : ι → Word
  stack_le : ∀ t, (stack t).base + (stack t).len ≤ 2 ^ 64
  ctx_le : ∀ t, (ctx t).toNat + 16 ≤ 2 ^ 64
  stack_apart : ∀ t u, t ≠ u → (stack t).Apart 0 (stack u)
  ctx_apart : ∀ t u, t ≠ u → Span.Apart 0 ⟨(ctx t).toNat, 16⟩ ⟨(ctx u).toNat, 16⟩
  ctx_stack : ∀ t u, Span.Apart 0 ⟨(ctx t).toNat, 16⟩ (stack u)

/-- The two words of a task's context. -/
def TaskLayout.ctxSpan (L : TaskLayout ι) (t : ι) : Span := ⟨(L.ctx t).toNat, 16⟩

theorem TaskLayout.word_within (L : TaskLayout ι) (t : ι) {k : Word} (hk : k.toNat ≤ 8) :
    (wordSpan (L.ctx t + k)).Within (L.ctxSpan t) := by
  have hle := L.ctx_le t
  have hadd : (L.ctx t + k).toNat = (L.ctx t).toNat + k.toNat := BitVec.toNat_add_of_lt (by omega)
  rw [wordSpan, ctxSpan, Span.Within, hadd]
  dsimp only
  omega

namespace TaskLayout

variable {L : TaskLayout ι} {m m' : ByteMem} {t u : ι} {p : Frame × Word} {ctx : TaskContext}
  {S : Span}

theorem readContext_eq (h : m.AgreeOn m' (L.ctxSpan t)) :
    m.readContext (L.ctx t) = m'.readContext (L.ctx t) := by
  have hrsp := h.read_eq (L.word_within t (k := 0) (by decide)) (L.ctx_le t)
  have hcr3 := h.read_eq (L.word_within t (k := 8) (by decide)) (L.ctx_le t)
  rw [ByteMem.readContext, ByteMem.readContext, hrsp, hcr3]

private theorem word_le (L : TaskLayout ι) (t : ι) {k : Word} (hk : k.toNat ≤ 8) :
    (L.ctx t + k).toNat + 8 ≤ 2 ^ 64 := (L.word_within t hk).2.trans (L.ctx_le t)

theorem words_apart (L : TaskLayout ι) (t : ι) :
    (wordSpan (L.ctx t + 8)).Apart 0 (wordSpan (L.ctx t + 0)) := by
  have hle := L.ctx_le t
  have height : (8 : Word).toNat = 8 := rfl
  have hadd : (L.ctx t + 8).toNat = (L.ctx t).toNat + (8 : Word).toNat :=
    BitVec.toNat_add_of_lt (by omega)
  have hzero : (L.ctx t + 0).toNat = (L.ctx t).toNat := congrArg _ (BitVec.add_zero _)
  simp only [wordSpan, Span.Apart, hadd, hzero]
  omega

theorem readContext_writeContext : (m.writeContext (L.ctx t) ctx).readContext (L.ctx t) = ctx := by
  have hrsp : (m.writeContext (L.ctx t) ctx).read (L.ctx t + 0) = ctx.rsp := by
    rw [ByteMem.writeContext, ByteMem.read_write_of_apart (L.word_le t (by decide))
      (L.word_le t (by decide)) (L.words_apart t), ByteMem.read_write]
  rw [ByteMem.readContext, hrsp, ByteMem.writeContext, ByteMem.read_write]

theorem writeContext_agreeOn (hS : (L.ctxSpan t).Apart 0 S) :
    (m.writeContext (L.ctx t) ctx).AgreeOn m S := by
  have hword : ∀ (m : ByteMem) (k v : Word), k.toNat ≤ 8 →
      (m.write (L.ctx t + k) v).AgreeOn m S := by
    intro m k v hk
    exact ByteMem.write_agreeOn m v (L.word_le t hk) (hS.of_within_left (L.word_within t hk))
  exact (hword _ 8 _ (by decide)).trans (hword _ 0 _ (by decide))

/-- What a switch into a task has to restore lies on its stack, where its context points. -/
def Saved (L : TaskLayout ι) (m : ByteMem) (t : ι) (pending : Frame × Word) : Prop :=
  m.frame (m.readContext (L.ctx t)).rsp = pending.1
    ∧ (m.readContext (L.ctx t)).rsp + 56 = pending.2
    ∧ Span.Within ⟨(m.readContext (L.ctx t)).rsp.toNat, 56⟩ (L.stack t)

theorem Saved.congr (h : L.Saved m t p) (hstack : m'.AgreeOn m (L.stack t))
    (hctx : m'.AgreeOn m (L.ctxSpan t)) : L.Saved m' t p := by
  obtain ⟨hframe, hsp, hwithin⟩ := h
  rw [Saved, readContext_eq hctx, hstack.frame_eq hwithin (L.stack_le t)]
  exact ⟨hframe, hsp, hwithin⟩

private theorem toNat_sub_frame {a : Word} (h : 56 ≤ a.toNat) : (a - 56).toNat = a.toNat - 56 :=
  BitVec.toNat_sub_of_le h

/-! ### A new task -/

section Spawn

variable {stackTop entry : Word} (cr3 : Word)

theorem spawn_agreeOn (hroom : 56 ≤ stackTop.toNat)
    (hwithin : Span.Within ⟨stackTop.toNat - 56, 56⟩ (L.stack t)) (hstack : (L.stack t).Apart 0 S)
    (hctx : (L.ctxSpan t).Apart 0 S) :
    ((initKernelTask m stackTop entry cr3).1.writeContext (L.ctx t) ctx).AgreeOn m S :=
  (writeContext_agreeOn hctx).trans
    (initKernelTask_agreeOn hroom (hstack.of_within_left hwithin))

theorem saved_spawn (hroom : 56 ≤ stackTop.toNat)
    (hwithin : Span.Within ⟨stackTop.toNat - 56, 56⟩ (L.stack t)) :
    L.Saved ((initKernelTask m stackTop entry cr3).1.writeContext (L.ctx t)
      (initKernelTask m stackTop entry cr3).2) t (⟨0, 0, 0, 0, 0, 0, entry⟩, stackTop) := by
  have hsp := toNat_sub_frame hroom
  have hspan : Span.Within ⟨(stackTop - 56).toNat, 56⟩ (L.stack t) := by rwa [hsp]
  have hkeep : ((initKernelTask m stackTop entry cr3).1.writeContext (L.ctx t)
      ⟨stackTop - 56, cr3⟩).AgreeOn (initKernelTask m stackTop entry cr3).1 (L.stack t) :=
    writeContext_agreeOn (L.ctx_stack t t)
  rw [Saved, readContext_writeContext, initKernelTask_context,
    hkeep.frame_eq hspan (L.stack_le t), initKernelTask_frame hroom]
  exact ⟨rfl, BitVec.sub_add_cancel _ _, hspan⟩

end Spawn

/-! ### A task that calls `switch_to` -/

section Call

variable {c : Cpu} {ret : Word}

/-- The caller of `switch_to` leaves everything outside its stack and its context alone. -/
theorem call_agreeOn (hrdi : c.regs rdi = L.ctx t) (hroom : 56 ≤ (c.regs rsp).toNat)
    (hwithin : Span.Within ⟨(c.regs rsp).toNat - 56, 56⟩ (L.stack t))
    (hstack : (L.stack t).Apart 0 S) (hctx : (L.ctxSpan t).Apart 0 S) :
    (c.saved ret).AgreeOn c.mem S := by
  have hword : (wordSpan (L.ctx t)).Within (L.ctxSpan t) := by
    simpa using L.word_within t (k := 0) (by decide)
  refine saved_agreeOn hroom ?_ ?_ (hstack.of_within_left hwithin)
  · rw [hrdi]
    exact hword.2.trans (L.ctx_le t)
  · rw [hrdi]
    exact hctx.of_within_left hword

theorem call_readContext (hrdi : c.regs rdi = L.ctx t) (hroom : 56 ≤ (c.regs rsp).toNat)
    (hwithin : Span.Within ⟨(c.regs rsp).toNat - 56, 56⟩ (L.stack t)) :
    (c.saved ret).readContext (L.ctx t)
      = ⟨c.regs rsp - 56, (c.mem.readContext (L.ctx t)).cr3⟩ := by
  have hword : (wordSpan (L.ctx t + 8)).Within (L.ctxSpan t) := L.word_within t (by decide)
  have hrsp : (c.saved ret).read (L.ctx t + 0) = c.regs rsp - 56 := by
    rw [← hrdi]
    exact saved_rsp
  have hkeep : (c.saved ret).AgreeOn c.mem (wordSpan (L.ctx t + 8)) := by
    refine saved_agreeOn hroom ?_ ?_ ?_
    · rw [hrdi]
      exact le_trans (Nat.add_le_add_left (by decide) _) (L.ctx_le t)
    · rw [hrdi]
      simpa using (L.words_apart t).symm
    · exact ((L.ctx_stack t t).of_within_left hword).symm.of_within_left hwithin
  have hcr3 := hkeep.read_eq ⟨le_refl _, le_refl _⟩ (L.word_le t (by decide))
  rw [ByteMem.readContext, hrsp, hcr3]
  rfl

theorem saved_call (hrdi : c.regs rdi = L.ctx t) (hroom : 56 ≤ (c.regs rsp).toNat)
    (hwithin : Span.Within ⟨(c.regs rsp).toNat - 56, 56⟩ (L.stack t)) :
    L.Saved (c.saved ret) t ({ c.frame with ret := ret }, c.regs rsp) := by
  have hspan : Span.Within ⟨(c.regs rsp - 56).toNat, 56⟩ (L.stack t) := by
    rwa [toNat_sub_frame hroom]
  have hword : (wordSpan (L.ctx t)).Within (L.ctxSpan t) := by
    simpa using L.word_within t (k := 0) (by decide)
  have hframe : (c.saved ret).frame (c.regs rsp - 56) = { c.frame with ret := ret } := by
    refine saved_frame hroom ?_ ?_
    · rw [hrdi]
      exact hword.2.trans (L.ctx_le t)
    · rw [hrdi]
      exact ((L.ctx_stack t t).of_within_left hword).of_within hwithin
  rw [Saved, call_readContext hrdi hroom hwithin, hframe]
  exact ⟨rfl, BitVec.sub_add_cancel _ _, hspan⟩

end Call

end TaskLayout

/-! ## The system -/

/-- What is known of a task. -/
inductive TaskStatus
  | absent
  /-- Created, and not yet run. -/
  | fresh (entry stackTop : Word)
  | running
  /-- Inside `switch_to`: the registers and the address to go on at, the stack pointer, and the
  page-table root, all as they were at the call. -/
  | waiting (frame : Frame) (sp cr3 : Word)
deriving DecidableEq

/-- What a switch into the task has to restore: the frame, and the stack pointer. -/
def TaskStatus.pending : TaskStatus → Option (Frame × Word)
  | .absent => none
  | .fresh entry stackTop => some (⟨0, 0, 0, 0, 0, 0, entry⟩, stackTop)
  | .running => none
  | .waiting frame sp _ => some (frame, sp)

/-- The task is inside `switch_to`. -/
def TaskStatus.isWaiting : TaskStatus → Bool
  | .waiting .. => true
  | _ => false

/-- The processor has what a switch into the task has to restore: a fresh task starts at its entry
with the callee-saved registers clear and an empty stack, and a task that called `switch_to` goes on
after the call with its registers and its stack pointer as they were. -/
def TaskStatus.Restored (c : Cpu) : TaskStatus → Prop
  | .absent => False
  | .fresh entry stackTop => c.rip = entry ∧ (∀ r ∈ [rbp, rbx, r12, r13, r14, r15], c.regs r = 0)
      ∧ c.regs rsp = stackTop
  | .running => False
  | .waiting frame sp _ => c.frame = frame ∧ c.regs rsp = sp

/-- What happens on the processor. -/
inductive TaskEvent (ι : Type*)
  /-- The running task computes, and leaves the machine like this. -/
  | work (cpu : Cpu)
  /-- The running task creates a task with `init_kernel_task` and stores its context. -/
  | spawn (t : ι) (stackTop entry cr3 : Word)
  /-- The running task calls `switch_to`, the call being followed by the instruction at `ret`. -/
  | switch (next : ι) (ret : Word)

/-- The machine, and what is known of the tasks. -/
structure TaskSys (ι : Type*) where
  cpu : Cpu
  current : ι
  status : ι → TaskStatus
  /-- The tasks that have come back from a call of `switch_to`. -/
  returned : ι → Bool

namespace TaskSys

variable [DecidableEq ι] (L : TaskLayout ι) (s : TaskSys ι)

/-- The tasks while `switch_to` is under way: the caller waits for its return. -/
def calling (ret : Word) : ι → TaskStatus :=
  Function.update s.status s.current
    (.waiting { s.cpu.frame with ret := ret } (s.cpu.regs rsp) s.cpu.cr3)

/-- The state after an event. -/
def next : TaskEvent ι → TaskSys ι
  | .work cpu => { s with cpu := cpu }
  | .spawn t stackTop entry cr3 =>
    let (m, ctx) := initKernelTask s.cpu.mem stackTop entry cr3
    { s with
      cpu := { s.cpu with mem := m.writeContext (L.ctx t) ctx }
      status := Function.update s.status t (.fresh entry stackTop) }
  | .switch next ret =>
    { cpu := s.cpu.call switchTo ret
      current := next
      status := Function.update (s.calling ret) next .running
      returned :=
        if (s.calling ret next).isWaiting then Function.update s.returned next true
        else s.returned }

/-- What the running task has to see to: it leaves the stacks and the contexts of the other tasks
alone; it creates a task once, with room for the frame on the task's stack; it calls `switch_to` on
its own stack, with its own context as `prev` and that of an existing task as `next`. -/
def Legal : TaskEvent ι → Prop
  | .work cpu => ∀ t, t ≠ s.current → s.status t ≠ .absent →
      cpu.mem.AgreeOn s.cpu.mem (L.stack t) ∧ cpu.mem.AgreeOn s.cpu.mem (L.ctxSpan t)
  | .spawn t stackTop _ _ => s.status t = .absent ∧ 56 ≤ stackTop.toNat ∧
      Span.Within ⟨stackTop.toNat - 56, 56⟩ (L.stack t)
  | .switch next _ => s.cpu.regs rdi = L.ctx s.current ∧ s.cpu.regs rsi = L.ctx next ∧
      s.status next ≠ .absent ∧ 56 ≤ (s.cpu.regs rsp).toNat ∧
      Span.Within ⟨(s.cpu.regs rsp).toNat - 56, 56⟩ (L.stack s.current)

/-- The processor and its tasks. At the start one task runs, and no other exists. -/
def machine : Machine (TaskSys ι) (TaskEvent ι) where
  init s := s.status = Function.update (fun _ ↦ .absent) s.current .running
    ∧ s.returned = fun _ ↦ false
  Legal := Legal L
  next s e := some (s.next L e)

/-! ## The invariant -/

/-- **The invariant.** -/
structure Inv : Prop where
  running : ∀ t, s.status t = .running ↔ t = s.current
  saved : ∀ t p, (s.status t).pending = some p → L.Saved s.cpu.mem t p

variable {L s} {t : ι} {p : Frame × Word} {next : ι} {ret : Word} {e : TaskEvent ι}

@[simp] theorem status_work (cpu : Cpu) : (s.next L (.work cpu)).status = s.status := rfl

@[simp] theorem status_spawn (t : ι) (stackTop entry cr3 : Word) :
    (s.next L (.spawn t stackTop entry cr3)).status
      = Function.update s.status t (.fresh entry stackTop) := rfl

@[simp] theorem status_switch (next : ι) (ret : Word) :
    (s.next L (.switch next ret)).status = Function.update (s.calling ret) next .running := rfl

@[simp] theorem mem_switch (next : ι) (ret : Word) :
    (s.next L (.switch next ret)).cpu.mem = s.cpu.saved ret := (call_switchTo s.cpu ret).1

theorem Inv.calling_ne_running (hinv : s.Inv L) (t : ι) : s.calling ret t ≠ .running := by
  rw [calling]
  rcases eq_or_ne t s.current with rfl | hne
  · rw [Function.update_self]
    nofun
  · rw [Function.update_of_ne hne]
    exact fun h ↦ hne ((hinv.running t).mp h)

theorem calling_ne_absent (hl : s.Legal L (.switch next ret)) : s.calling ret next ≠ .absent := by
  rw [calling]
  rcases eq_or_ne next s.current with rfl | hne
  · rw [Function.update_self]
    nofun
  · rw [Function.update_of_ne hne]
    exact hl.2.2.1

/-- The call saves its caller and disturbs nobody else. -/
theorem saved_calling (hinv : s.Inv L) (hl : s.Legal L (.switch next ret))
    (h : (s.calling ret t).pending = some p) : L.Saved (s.cpu.saved ret) t p := by
  obtain ⟨hrdi, -, -, hroom, hwithin⟩ := hl
  rcases eq_or_ne t s.current with rfl | hne
  · rw [calling, Function.update_self] at h
    obtain rfl := Option.some.inj h
    exact L.saved_call hrdi hroom hwithin
  · rw [calling, Function.update_of_ne hne] at h
    refine (hinv.saved t p h).congr ?_ ?_
    · exact L.call_agreeOn hrdi hroom hwithin (L.stack_apart _ _ hne.symm) (L.ctx_stack _ _)
    · exact L.call_agreeOn hrdi hroom hwithin (L.ctx_stack _ _).symm (L.ctx_apart _ _ hne.symm)

theorem inv_next (hinv : s.Inv L) (hl : s.Legal L e) : (s.next L e).Inv L := by
  have hcur : s.status s.current = .running := (hinv.running _).mpr rfl
  cases e with
  | work cpu =>
    refine ⟨hinv.running, fun t p h ↦ ?_⟩
    rw [status_work] at h
    have hne : t ≠ s.current := by
      rintro rfl
      rw [hcur] at h
      cases h
    have hexists : s.status t ≠ .absent := by
      intro habs
      rw [habs] at h
      cases h
    obtain ⟨hstack, hctx⟩ := hl t hne hexists
    exact (hinv.saved t p h).congr hstack hctx
  | spawn t stackTop entry cr3 =>
    obtain ⟨habs, hroom, hwithin⟩ := hl
    refine ⟨fun u ↦ ?_, fun u p h ↦ ?_⟩
    · rw [status_spawn]
      rcases eq_or_ne u t with rfl | hne
      · rw [Function.update_self]
        refine iff_of_false nofun fun h : u = s.current ↦ ?_
        rw [h, hcur] at habs
        cases habs
      · rw [Function.update_of_ne hne]
        exact hinv.running u
    rw [status_spawn] at h
    rcases eq_or_ne u t with rfl | hne
    · rw [Function.update_self] at h
      obtain rfl := Option.some.inj h
      exact L.saved_spawn cr3 hroom hwithin
    · rw [Function.update_of_ne hne] at h
      refine (hinv.saved u p h).congr ?_ ?_
      · exact L.spawn_agreeOn cr3 hroom hwithin (L.stack_apart _ _ hne.symm) (L.ctx_stack _ _)
      · exact L.spawn_agreeOn cr3 hroom hwithin (L.ctx_stack _ _).symm (L.ctx_apart _ _ hne.symm)
  | switch next ret =>
    refine ⟨fun t ↦ ?_, fun t p h ↦ ?_⟩
    · rw [status_switch]
      rcases eq_or_ne t next with rfl | hne
      · exact iff_of_true (Function.update_self _ _ _) rfl
      · rw [Function.update_of_ne hne]
        exact iff_of_false (hinv.calling_ne_running t) hne
    rw [status_switch] at h
    have hne : t ≠ next := by
      rintro rfl
      rw [Function.update_self] at h
      cases h
    rw [Function.update_of_ne hne] at h
    rw [mem_switch]
    exact saved_calling hinv hl h

theorem inv_of_reachable (hs : (machine L).system.Reachable s) : s.Inv L := by
  refine hs.invariant ?_ ?_
  · rintro s ⟨hstatus, -⟩
    have hother : ∀ t, t ≠ s.current → s.status t = .absent := by
      intro t hne
      rw [hstatus, Function.update_of_ne hne]
    have hcur : s.status s.current = .running := by rw [hstatus, Function.update_self]
    refine ⟨fun t ↦ ⟨fun h ↦ ?_, fun h ↦ h ▸ hcur⟩, fun t p h ↦ ?_⟩
    · by_contra hne
      rw [hother t hne] at h
      cases h
    · rcases eq_or_ne t s.current with rfl | hne
      · rw [hcur] at h
        cases h
      · rw [hother t hne] at h
        cases h
  · rintro s e s' - hinv ⟨hl, hnext⟩
    obtain rfl := Option.some.inj hnext
    exact inv_next hinv hl

/-! ## Registers and stack -/

/-- The switch brings back what the task was waiting for. -/
private theorem restores_pending (hinv : s.Inv L) (hl : s.Legal L (.switch next ret))
    (h : (s.calling ret next).pending = some p) :
    (s.next L (.switch next ret)).cpu.frame = p.1
      ∧ (s.next L (.switch next ret)).cpu.regs rsp = p.2 := by
  obtain ⟨hframe, hsp, -⟩ := saved_calling hinv hl h
  obtain ⟨-, -, hframe', hsp'⟩ := call_switchTo s.cpu ret
  rw [hl.2.1] at hframe' hsp'
  exact ⟨hframe'.trans hframe, hsp'.trans hsp⟩

omit [DecidableEq ι] in
theorem call_cr3 (hl : s.Legal L (.switch next ret)) (t : ι) :
    ((s.cpu.saved ret).readContext (L.ctx t)).cr3 = (s.cpu.mem.readContext (L.ctx t)).cr3 := by
  obtain ⟨hrdi, -, -, hroom, hwithin⟩ := hl
  rcases eq_or_ne t s.current with rfl | hne
  · rw [L.call_readContext hrdi hroom hwithin]
  · rw [L.readContext_eq (L.call_agreeOn hrdi hroom hwithin (L.ctx_stack _ _).symm
      (L.ctx_apart _ _ hne.symm))]

theorem switch_cr3 (hl : s.Legal L (.switch next ret)) :
    (s.next L (.switch next ret)).cpu.cr3 = (s.cpu.mem.readContext (L.ctx next)).cr3 := by
  have hcr3 := (call_switchTo s.cpu ret).2.1
  rw [hl.2.1] at hcr3
  exact hcr3.trans (call_cr3 hl next)

/-- **A switch restores registers and stack.** In every state that tasks sharing the processor can
reach, switching into a fresh task starts it at its entry, and switching back to a task that called
`switch_to` goes on right after that call, with the registers and the stack pointer of the call.
The page-table root is then the one in the context switched to. -/
theorem switch_restores (hs : (machine L).system.Reachable s)
    (hl : s.Legal L (.switch next ret)) :
    (s.calling ret next).Restored (s.next L (.switch next ret)).cpu
      ∧ (s.next L (.switch next ret)).cpu.cr3
        = (s.cpu.mem.readContext (L.ctx next)).cr3 := by
  have hinv := inv_of_reachable hs
  refine ⟨?_, switch_cr3 hl⟩
  have hpending := fun p ↦ restores_pending (p := p) hinv hl
  rcases hstatus : s.calling ret next with _ | ⟨entry, stackTop⟩ | _ | ⟨frame, sp, cr3⟩
  · exact absurd hstatus (calling_ne_absent hl)
  · obtain ⟨hframe, hsp⟩ := hpending (⟨0, 0, 0, 0, 0, 0, entry⟩, stackTop) (by rw [hstatus]; rfl)
    simp only [Cpu.frame, Frame.mk.injEq] at hframe
    obtain ⟨h15, h14, h13, h12, hbx, hbp, hrip⟩ := hframe
    refine ⟨hrip, ?_, hsp⟩
    simp [h15, h14, h13, h12, hbx, hbp]
  · exact absurd hstatus (hinv.calling_ne_running next)
  · exact hpending (frame, sp) (by rw [hstatus]; rfl)

section TwoTasks

/-- Two tasks with a page of stack each. -/
def twoTasks : TaskLayout Bool where
  stack t := ⟨if t then 0x2000 else 0x1000, 0x1000⟩
  ctx t := if t then 0x200 else 0x100
  stack_le t := by cases t <;> decide
  ctx_le t := by cases t <;> decide
  stack_apart t u h := by cases t <;> cases u <;> first | exact absurd rfl h | decide
  ctx_apart t u h := by cases t <;> cases u <;> first | exact absurd rfl h | decide
  ctx_stack t u := by cases t <;> cases u <;> decide

/-- The processor about to call `switch_to`. -/
def atCall (c : Cpu) (prev next sp : Word) : Cpu :=
  { c with
    regs := fun
      | .rdi => prev
      | .rsi => next
      | .rsp => sp
      | _ => 7 }

theorem legal_atCall {s : TaskSys Bool} (prev next sp : Word) :
    s.Legal twoTasks (.work (atCall s.cpu prev next sp)) := fun _ _ _ ↦ ⟨.refl _ _, .refl _ _⟩

/-- The first task, alone, about to switch to the second. -/
def oneTask : TaskSys Bool where
  cpu := atCall ⟨fun _ ↦ 0, 0, 0x1000, false, fun _ ↦ 0⟩ 0x100 0x200 0x2000
  current := false
  status := Function.update (fun _ ↦ .absent) false .running
  returned := fun _ ↦ false

/-- The second task is created with its entry at `0x8000`. -/
def bothTasks : TaskSys Bool := oneTask.next twoTasks (.spawn true 0x3000 0x8000 0x5000)

theorem oneTask_legal : oneTask.Legal twoTasks (.spawn true 0x3000 0x8000 0x5000) :=
  ⟨rfl, by decide, by decide⟩

theorem bothTasks_reachable : (machine twoTasks).system.Reachable bothTasks :=
  .step (e := .spawn true 0x3000 0x8000 0x5000)
    (.init ⟨rfl, rfl⟩ : (machine twoTasks).system.Reachable oneTask) ⟨oneTask_legal, rfl⟩

theorem bothTasks_legal : bothTasks.Legal twoTasks (.switch true 0x4000) :=
  ⟨rfl, rfl, nofun, by decide, by decide⟩

/-- The boot task has switched to the second task. -/
def switchedOnce : TaskSys Bool := bothTasks.next twoTasks (.switch true 0x4000)

/-- The second task is about to switch back. -/
def switchingBack : TaskSys Bool :=
  switchedOnce.next twoTasks (.work (atCall switchedOnce.cpu 0x200 0x100 0x3000))

theorem switchingBack_legal : switchingBack.Legal twoTasks (.switch false 0x6000) :=
  ⟨rfl, rfl, nofun, by decide, by decide⟩

/-- The second task starts at its entry, on its own stack; and when it switches back, the first goes
on after its call. -/
theorem switch_restores_bothTasks :
    bothTasks.calling 0x4000 true = .fresh 0x8000 0x3000
      ∧ (TaskStatus.fresh 0x8000 0x3000).Restored switchedOnce.cpu
      ∧ switchedOnce.cpu.cr3 = (bothTasks.cpu.mem.readContext (twoTasks.ctx true)).cr3
      ∧ switchingBack.calling 0x6000 false
        = .waiting ⟨7, 7, 7, 7, 7, 7, 0x4000⟩ 0x2000 0x1000
      ∧ (TaskStatus.waiting ⟨7, 7, 7, 7, 7, 7, 0x4000⟩ 0x2000 0x1000).Restored
        (switchingBack.next twoTasks (.switch false 0x6000)).cpu := by
  have honce : (machine twoTasks).system.Reachable switchedOnce :=
    .step (e := .switch true 0x4000) bothTasks_reachable ⟨bothTasks_legal, rfl⟩
  have hback : (machine twoTasks).system.Reachable switchingBack :=
    .step (e := .work _) honce ⟨legal_atCall 0x200 0x100 0x3000, rfl⟩
  have hfresh : bothTasks.calling 0x4000 true = .fresh 0x8000 0x3000 := rfl
  have hwaiting : switchingBack.calling 0x6000 false
      = .waiting ⟨7, 7, 7, 7, 7, 7, 0x4000⟩ 0x2000 0x1000 := rfl
  obtain ⟨hstarted, hcr3⟩ := switch_restores bothTasks_reachable bothTasks_legal
  obtain ⟨hresumed, -⟩ := switch_restores hback switchingBack_legal
  rw [hfresh] at hstarted
  rw [hwaiting] at hresumed
  exact ⟨hfresh, hstarted, hcr3, hwaiting, hresumed⟩

end TwoTasks

/-! ## Address spaces -/

/-- The running task loads no page-table root by itself, and leaves its own context alone. -/
def KeepsSpace (L : TaskLayout ι) (s : TaskSys ι) : TaskEvent ι → Prop
  | .work cpu => cpu.cr3 = s.cpu.cr3 ∧ cpu.mem.AgreeOn s.cpu.mem (L.ctxSpan s.current)
  | .spawn .. => True
  | .switch .. => True

/-- The schedules that begin in the boot task, which has the empty context and runs with the
page-table root `root`, and in which only `switch_to` loads another. -/
def bootMachine (L : TaskLayout ι) (boot : ι) (root : Word) :
    Machine (TaskSys ι) (TaskEvent ι) where
  init s := (machine L).init s ∧ s.current = boot ∧ s.cpu.cr3 = root
    ∧ s.cpu.mem.readContext (L.ctx boot) = TaskContext.empty
  Legal s e := s.Legal L e ∧ s.KeepsSpace L e
  next := (machine L).next

variable {boot : ι} {root : Word}

/-- The root a task has loaded whenever it runs: the one in its context, except that the boot task
keeps the root it was started with until it is first resumed. -/
def rootOf (s : TaskSys ι) (L : TaskLayout ι) (boot : ι) (root : Word) (t : ι) : Word :=
  if t = boot ∧ s.returned boot = false then root else (s.cpu.mem.readContext (L.ctx t)).cr3

/-- The invariant of the schedules that begin in the boot task. -/
structure BootInv (L : TaskLayout ι) (boot : ι) (root : Word) (s : TaskSys ι) : Prop where
  inv : s.Inv L
  current : s.cpu.cr3 = s.rootOf L boot root s.current
  waiting : ∀ t frame sp cr3, s.status t = .waiting frame sp cr3 → cr3 = s.rootOf L boot root t
  boot_absent : s.status boot ≠ .absent
  boot_fresh : ∀ entry stackTop, s.status boot ≠ .fresh entry stackTop
  boot_cr3 : (s.cpu.mem.readContext (L.ctx boot)).cr3 = 0

/-- No event changes the page-table root in the context of an existing task. -/
theorem context_cr3_next (hl : s.Legal L e) (hkeep : s.KeepsSpace L e)
    (hexists : s.status t ≠ .absent) :
    ((s.next L e).cpu.mem.readContext (L.ctx t)).cr3
      = (s.cpu.mem.readContext (L.ctx t)).cr3 := by
  cases e with
  | work cpu =>
    rcases eq_or_ne t s.current with rfl | hne
    · exact congrArg _ (L.readContext_eq hkeep.2)
    · exact congrArg _ (L.readContext_eq (hl t hne hexists).2)
  | spawn u stackTop entry cr3 =>
    obtain ⟨habs, hroom, hwithin⟩ := hl
    have hne : t ≠ u := by
      rintro rfl
      exact hexists habs
    exact congrArg _ (L.readContext_eq (L.spawn_agreeOn cr3 hroom hwithin (L.ctx_stack _ _).symm
      (L.ctx_apart _ _ hne.symm)))
  | switch next ret =>
    rw [mem_switch]
    exact call_cr3 hl t

/-- A switch into the boot task is a return to it. -/
theorem BootInv.calling_boot (h : s.BootInv L boot root) (ret : Word) :
    ∃ frame sp, s.calling ret boot = .waiting frame sp (s.rootOf L boot root boot) := by
  rw [calling]
  rcases eq_or_ne boot s.current with hcur | hne
  · rw [← hcur, Function.update_self, h.current, hcur]
    exact ⟨_, _, rfl⟩
  · rw [Function.update_of_ne hne]
    rcases hstatus : s.status boot with _ | ⟨entry, stackTop⟩ | _ | ⟨frame, sp, cr3⟩
    · exact absurd hstatus h.boot_absent
    · exact absurd hstatus (h.boot_fresh entry stackTop)
    · exact absurd ((h.inv.running boot).mp hstatus) hne
    · rw [h.waiting boot frame sp cr3 hstatus]
      exact ⟨frame, sp, rfl⟩

theorem BootInv.calling_waiting (h : s.BootInv L boot root) {frame : Frame} {sp cr3 : Word}
    (hw : s.calling ret t = .waiting frame sp cr3) : cr3 = s.rootOf L boot root t := by
  rw [calling] at hw
  rcases eq_or_ne t s.current with rfl | hne
  · rw [Function.update_self] at hw
    cases hw
    exact h.current
  · rw [Function.update_of_ne hne] at hw
    exact h.waiting t frame sp cr3 hw

theorem returned_switch_boot (h : s.BootInv L boot root) :
    (s.next L (.switch boot ret)).returned boot = true := by
  obtain ⟨frame, sp, hw⟩ := h.calling_boot ret
  simp [TaskSys.next, hw, TaskStatus.isWaiting]

theorem returned_switch_of_ne (hne : next ≠ t) :
    (s.next L (.switch next ret)).returned t = s.returned t := by
  rw [TaskSys.next]
  split_ifs
  · exact Function.update_of_ne hne.symm _ _
  · rfl

theorem rootOf_next (hl : s.Legal L e) (hkeep : s.KeepsSpace L e) (hexists : s.status t ≠ .absent)
    (hreturned : t = boot → (s.next L e).returned boot = s.returned boot) :
    (s.next L e).rootOf L boot root t = s.rootOf L boot root t := by
  rw [rootOf, rootOf, context_cr3_next hl hkeep hexists]
  rcases eq_or_ne t boot with rfl | hne
  · rw [hreturned rfl]
  · rw [if_neg fun h ↦ hne h.1, if_neg fun h ↦ hne h.1]

private theorem BootInv.rootOf_current (h : s.BootInv L boot root) (hl : s.Legal L e)
    (hkeep : s.KeepsSpace L e) (hreturned : (s.next L e).returned boot = s.returned boot) :
    (s.next L e).rootOf L boot root s.current = s.rootOf L boot root s.current := by
  refine rootOf_next hl hkeep ?_ fun _ ↦ hreturned
  rw [(h.inv.running _).mpr rfl]
  nofun

private theorem BootInv.boot_next (h : s.BootInv L boot root) (hl : s.Legal L e) :
    (s.next L e).status boot ≠ .absent
      ∧ ∀ entry stackTop, (s.next L e).status boot ≠ .fresh entry stackTop := by
  cases e with
  | work cpu => exact ⟨h.boot_absent, h.boot_fresh⟩
  | spawn u stackTop entry cr3 =>
    have hne : boot ≠ u := by
      rintro rfl
      exact h.boot_absent hl.1
    rw [status_spawn, Function.update_of_ne hne]
    exact ⟨h.boot_absent, h.boot_fresh⟩
  | switch next ret =>
    rw [status_switch]
    rcases eq_or_ne boot next with rfl | hne
    · rw [Function.update_self]
      exact ⟨nofun, nofun⟩
    · obtain ⟨frame, sp, hw⟩ := h.calling_boot ret
      rw [Function.update_of_ne hne, hw]
      exact ⟨nofun, nofun⟩

private theorem BootInv.current_next (h : s.BootInv L boot root) (hl : s.Legal L e)
    (hkeep : s.KeepsSpace L e) :
    (s.next L e).cpu.cr3 = (s.next L e).rootOf L boot root (s.next L e).current := by
  cases e with
  | work cpu =>
    have hroot := h.rootOf_current hl hkeep rfl
    exact hkeep.1.trans (h.current.trans hroot.symm)
  | spawn u stackTop entry cr3 =>
    have hroot := h.rootOf_current hl hkeep rfl
    exact h.current.trans hroot.symm
  | switch next ret =>
    have hreturned : next = boot → (s.next L (.switch next ret)).returned boot = true := by
      rintro rfl
      exact returned_switch_boot h
    rw [switch_cr3 hl, rootOf, if_neg]
    · exact (context_cr3_next hl hkeep hl.2.2.1).symm
    · rintro ⟨hnext, hfalse⟩
      rw [hreturned hnext] at hfalse
      cases hfalse

private theorem BootInv.waiting_next (h : s.BootInv L boot root) (hl : s.Legal L e)
    (hkeep : s.KeepsSpace L e) {frame : Frame} {sp cr3 : Word}
    (hw : (s.next L e).status t = .waiting frame sp cr3) :
    cr3 = (s.next L e).rootOf L boot root t := by
  cases e with
  | work cpu =>
    rw [status_work] at hw
    rw [rootOf_next hl hkeep (by rw [hw]; nofun) fun _ ↦ rfl]
    exact h.waiting t frame sp cr3 hw
  | spawn u stackTop entry cr3' =>
    rw [status_spawn] at hw
    rcases eq_or_ne t u with rfl | hne
    · rw [Function.update_self] at hw
      cases hw
    · rw [Function.update_of_ne hne] at hw
      rw [rootOf_next hl hkeep (by rw [hw]; nofun) fun _ ↦ rfl]
      exact h.waiting t frame sp cr3 hw
  | switch next ret =>
    rw [status_switch] at hw
    have hne : t ≠ next := by
      rintro rfl
      rw [Function.update_self] at hw
      cases hw
    rw [Function.update_of_ne hne] at hw
    -- a task that does not exist does not call
    have hexists : s.status t ≠ .absent := by
      intro habs
      have hother : t ≠ s.current := by
        rintro rfl
        rw [(h.inv.running _).mpr rfl] at habs
        cases habs
      rw [calling, Function.update_of_ne hother, habs] at hw
      cases hw
    rw [rootOf_next hl hkeep hexists fun ht ↦ returned_switch_of_ne (ht ▸ hne.symm)]
    exact h.calling_waiting hw

theorem bootInv_next (h : s.BootInv L boot root) (hl : s.Legal L e) (hkeep : s.KeepsSpace L e) :
    (s.next L e).BootInv L boot root where
  inv := inv_next h.inv hl
  current := h.current_next hl hkeep
  waiting _ _ _ _ hw := h.waiting_next hl hkeep hw
  boot_absent := (h.boot_next hl).1
  boot_fresh := (h.boot_next hl).2
  boot_cr3 := (context_cr3_next hl hkeep h.boot_absent).trans h.boot_cr3

theorem reachable_boot_next (hs : (bootMachine L boot root).system.Reachable s)
    (hl : s.Legal L e) (hkeep : s.KeepsSpace L e) :
    (bootMachine L boot root).system.Reachable (s.next L e) := .step hs ⟨⟨hl, hkeep⟩, rfl⟩

theorem bootInv_of_reachable (hs : (bootMachine L boot root).system.Reachable s) :
    s.BootInv L boot root := by
  refine hs.invariant ?_ ?_
  · rintro s ⟨⟨hstatus, hreturned⟩, rfl, rfl, hempty⟩
    have hinit : (machine L).system.Reachable s := .init ⟨hstatus, hreturned⟩
    have hcur : s.status s.current = .running := by rw [hstatus, Function.update_self]
    refine ⟨inv_of_reachable hinit, ?_, ?_, ?_, ?_, ?_⟩
    · rw [rootOf, if_pos ⟨rfl, congrFun hreturned _⟩]
    · intro t frame sp cr3 hw
      rw [hstatus] at hw
      rcases eq_or_ne t s.current with rfl | hne
      · rw [Function.update_self] at hw
        cases hw
      · rw [Function.update_of_ne hne] at hw
        cases hw
    · rw [hcur]
      nofun
    · rw [hcur]
      nofun
    · rw [hempty]
      rfl
  · rintro s e s' - hinv ⟨⟨hl, hkeep⟩, hnext⟩
    obtain rfl := Option.some.inj hnext
    exact bootInv_next hinv hl hkeep

/-- The root loaded when a waiting task is resumed, against the one it had. -/
private theorem cr3_resumed_iff (h : s.BootInv L boot root) (hl : s.Legal L (.switch next ret))
    {frame : Frame} {sp cr3 : Word} (hw : s.calling ret next = .waiting frame sp cr3) :
    (s.next L (.switch next ret)).cpu.cr3 = cr3
      ↔ (next = boot → root = 0 ∨ s.returned boot = true) := by
  have hcr3 := h.calling_waiting hw
  rw [switch_cr3 hl, hcr3, rootOf]
  rcases eq_or_ne next boot with rfl | hne
  · cases hreturned : s.returned next with
    | true => simp
    | false =>
      rw [if_pos ⟨rfl, rfl⟩, h.boot_cr3]
      simpa using eq_comm
  · simp [hne]

/-- **When a switch restores the address space.** A resumed task finds the page-table root it had
when it called `switch_to`, with one exception: the boot task, if it was started with a root other
than zero and is resumed for the first time. -/
theorem switch_restores_space_iff (hs : (bootMachine L boot root).system.Reachable s)
    (hl : s.Legal L (.switch next ret)) {frame : Frame} {sp cr3 : Word}
    (hw : s.calling ret next = .waiting frame sp cr3) :
    (s.next L (.switch next ret)).cpu.cr3 = cr3
      ↔ (next = boot → root = 0 ∨ s.returned boot = true) :=
  cr3_resumed_iff (bootInv_of_reachable hs) hl hw

theorem keepsSpace_atCall {s : TaskSys Bool} (prev next sp : Word) :
    s.KeepsSpace twoTasks (.work (atCall s.cpu prev next sp)) := ⟨rfl, .refl _ _⟩

theorem switchingBack_reachable :
    (bootMachine twoTasks false 0x1000).system.Reachable switchingBack := by
  have hinit : (bootMachine twoTasks false 0x1000).system.Reachable oneTask :=
    .init ⟨⟨rfl, rfl⟩, rfl, rfl, by decide⟩
  have hboth : (bootMachine twoTasks false 0x1000).system.Reachable bothTasks :=
    reachable_boot_next hinit oneTask_legal trivial
  have honce : (bootMachine twoTasks false 0x1000).system.Reachable switchedOnce :=
    reachable_boot_next hboth bothTasks_legal trivial
  exact reachable_boot_next honce (legal_atCall _ _ _) (keepsSpace_atCall _ _ _)

/-- The boot task called `switch_to` with the root `0x1000` loaded, and resumes with the root
zero. -/
theorem boot_space_lost :
    (bootMachine twoTasks false 0x1000).system.Reachable switchingBack
      ∧ switchingBack.Legal twoTasks (.switch false 0x6000)
      ∧ (∃ frame sp, switchingBack.calling 0x6000 false = .waiting frame sp 0x1000)
      ∧ (switchingBack.next twoTasks (.switch false 0x6000)).cpu.cr3 = 0 :=
  ⟨switchingBack_reachable, switchingBack_legal, ⟨_, _, rfl⟩,
    (switch_cr3 switchingBack_legal).trans (bootInv_of_reachable switchingBack_reachable).boot_cr3⟩

/-- The boot task, resumed for the first time with a root other than zero, does not get it back. -/
theorem switch_restores_space_iff_switchingBack :
    (switchingBack.next twoTasks (.switch false 0x6000)).cpu.cr3 = 0x1000
      ↔ (false = false → (0x1000 : Word) = 0 ∨ switchingBack.returned false = true) :=
  switch_restores_space_iff switchingBack_reachable switchingBack_legal rfl

end TaskSys

end Zeroxos
