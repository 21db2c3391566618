import Zeroxos.Kernel.Serial
import Zeroxos.Kernel.TrapEntry
import Zeroxos.Library.Template
import Mathlib.Logic.Relation

/-!
# The crash dump

What is printed when the kernel cannot go on: the frame of an exception (`isr_dispatch` of `idt.rs`)
or the message of a panic (`panic.rs`). Both may come in the middle of a message, between any two
accesses to the device, and with the lock of the console held by code that never runs again; so both
take the lock away first.

## A message under way

Printing is cut into accesses to the device, and a message may be left after any of them. Whatever
the point, what was printed is a part of the message from its beginning (`Under`), and the port has
its settings, which is all that the dump relies on.

## The dump

From any such point the dump gets out, behind what had been printed of the message. A reader of the
dump gets back the registers that the processor had when the exception came (`exception_reported`):
the text is a template with numbers of a fixed width, and a template is read as it was written.
-/

namespace Zeroxos

open Reg EntryCpu

/-! ## The lock -/

/-- `COM1_PORT`: the device behind its lock. -/
structure Com1 where
  locked : Bool
  console : Console

namespace Com1

/-- `lock`. It waits as long as the lock is held, and nobody else runs who could give it back. -/
def lock (s : Com1) : Option Com1 := if s.locked then none else some { s with locked := true }

/-- `force_unlock`, and the guard's `drop` -/
def unlock (s : Com1) : Com1 := { s with locked := false }

end Com1

/-- What both handlers do: take the lock, print lines and give it back. Then the processor halts. -/
def report (line : LineTime) (rounds : ℕ) (lines : List (List Piece × List ℕ)) (s : Com1) :
    Option Com1 := do
  let s ← s.unlock.lock
  let console ← writeAll line rounds (lines.map fun l ↦ render l.1 l.2) s.console
  some { s with console := console }.unlock

/-! ## The handlers -/

/-- A text of a format string. -/
def lit (s : String) : List Piece := [.text (ascii s)]

/-- A placeholder `{}` of a number -/
def dec : List Piece := [.number 10 0]

/-- The placeholder `{:#x}` -/
def hex : List Piece := lit "0x" ++ [.number 16 0]

/-- The placeholder `{:#018x}` -/
def hex18 : List Piece := lit "0x" ++ [.number 16 16]

def exceptionLine : List Piece := lit "\n\n*** CPU EXCEPTION #" ++ dec ++ lit " ***\n"

def errorCodeLine : List Piece := lit "  error_code=" ++ hex ++ lit "\n"

def ripLine : List Piece :=
  lit "  rip=" ++ hex18 ++ lit " cs=" ++ hex ++ lit " rflags=" ++ hex ++ lit "\n"

def rspLine : List Piece := lit "  rsp=" ++ hex18 ++ lit " ss=" ++ hex ++ lit "\n"

def raxLine : List Piece :=
  lit "  rax=" ++ hex18 ++ lit " rbx=" ++ hex18 ++ lit " rcx=" ++ hex18 ++ lit " rdx=" ++ hex18 ++
    lit "\n"

def rsiLine : List Piece :=
  lit "  rsi=" ++ hex18 ++ lit " rdi=" ++ hex18 ++ lit " rbp=" ++ hex18 ++ lit "\n"

def cr2Line : List Piece := lit "  cr2=" ++ hex18 ++ lit " (page fault address)\n"

def haltedLine : List Piece := lit "  system halted.\n"

/-- The lines of an exception, with what is put in their places. -/
def dumpLines (f : InterruptFrame) (cr2 : Word) : List (List Piece × List ℕ) :=
  (exceptionLine, [f.vector.toNat]) ::
    [(errorCodeLine, [f.errorCode.toNat]),
      (ripLine, [f.rip.toNat, f.cs.toNat, f.rflags.toNat]),
      (rspLine, [f.rsp.toNat, f.ss.toNat]),
      (raxLine, [f.rax.toNat, f.rbx.toNat, f.rcx.toNat, f.rdx.toNat]),
      (rsiLine, [f.rsi.toNat, f.rdi.toNat, f.rbp.toNat])] ++
    (if f.vector = 14 then [(cr2Line, [cr2.toNat])] else []) ++
    [(haltedLine, [])]

/-- `isr_dispatch`, until it halts. -/
def isrDispatch (line : LineTime) (rounds : ℕ) (m : ByteMem) (frame cr2 : Word) (s : Com1) :
    Option Com1 :=
  report line rounds (dumpLines (InterruptFrame.load m frame) cr2) s

/-- The lines of a panic: where, if it is known, and why. -/
def panicLines (location : Option (List (BitVec 8) × ℕ × ℕ)) (message : List (BitVec 8)) :
    List (List Piece × List ℕ) :=
  [(lit "\n\n*** KERNEL PANIC ***\n", [])] ++
    (match location with
      | some (file, row, column) =>
        [(lit "  at " ++ [.text file] ++ lit ":" ++ dec ++ lit ":" ++ dec ++ lit "\n",
          [row, column])]
      | none => []) ++
    [(lit "  " ++ [.text message] ++ lit "\n", []), (haltedLine, [])]

/-- `on_panic`, until it halts. -/
def onPanic (line : LineTime) (rounds : ℕ) (location : Option (List (BitVec 8) × ℕ × ℕ))
    (message : List (BitVec 8)) (s : Com1) : Option Com1 :=
  report line rounds (panicLines location message) s

/-! ## Reading a dump -/

/-- The lines behind the first one. -/
def dumpTemplates (pageFault : Bool) : List (List Piece) :=
  [errorCodeLine, ripLine, rspLine, raxLine, rsiLine] ++ (if pageFault then [cr2Line] else []) ++
    [haltedLine]

/-- A reader of dumps: the number of the exception says whether there is an address. -/
def readDump (s : List (BitVec 8)) : Option (List (List ℕ)) := do
  let (head, s) ← scan exceptionLine s
  let (rest, s) ← scanAll (dumpTemplates (head = [14])) s
  if s = [] then some (head :: rest) else none

theorem dumpLines_separated (f : InterruptFrame) (cr2 : Word) :
    ∀ l ∈ dumpLines f cr2, separated l.1 ∧ l.2.length = arity l.1 := by
  have hlines : ∀ t ∈ [exceptionLine, errorCodeLine, ripLine, rspLine, raxLine, rsiLine, cr2Line,
    haltedLine], separated t := by decide
  simp only [List.forall_mem_cons] at hlines
  obtain ⟨h₀, h₁, h₂, h₃, h₄, h₅, h₆, h₇, -⟩ := hlines
  rw [dumpLines]
  split_ifs
  · simp only [List.cons_append, List.nil_append, List.forall_mem_cons]
    exact ⟨⟨h₀, rfl⟩, ⟨h₁, rfl⟩, ⟨h₂, rfl⟩, ⟨h₃, rfl⟩, ⟨h₄, rfl⟩, ⟨h₅, rfl⟩, ⟨h₆, rfl⟩, ⟨h₇, rfl⟩,
      List.forall_mem_nil _⟩
  · simp only [List.cons_append, List.nil_append, List.forall_mem_cons]
    exact ⟨⟨h₀, rfl⟩, ⟨h₁, rfl⟩, ⟨h₂, rfl⟩, ⟨h₃, rfl⟩, ⟨h₄, rfl⟩, ⟨h₅, rfl⟩, ⟨h₇, rfl⟩,
      List.forall_mem_nil _⟩

/-- **A dump is read as it was printed.** -/
theorem readDump_renderAll (f : InterruptFrame) (cr2 : Word) :
    readDump (renderAll (dumpLines f cr2)) = some ((dumpLines f cr2).map Prod.snd) := by
  obtain ⟨rest, hrest, htemplates⟩ : ∃ rest, dumpLines f cr2 = (exceptionLine, [f.vector.toNat]) ::
      rest ∧ dumpTemplates ([f.vector.toNat] = [14]) = rest.map Prod.fst := by
    refine ⟨_, rfl, ?_⟩
    have hvector : f.vector = 14 ↔ [f.vector.toNat] = [14] := by
      rw [← BitVec.toNat_inj, List.cons.injEq, and_iff_left rfl]
      rfl
    by_cases hfault : f.vector = 14
    · rw [dumpTemplates, if_pos hfault, if_pos (decide_eq_true (hvector.mp hfault))]
      rfl
    · have hother : ¬decide ([f.vector.toNat] = [14]) = true := by
        rwa [decide_eq_true_eq, ← hvector]
      rw [dumpTemplates, if_neg hfault, if_neg hother]
      rfl
  have hlines := dumpLines_separated f cr2
  rw [hrest] at hlines ⊢
  obtain ⟨hseparated, harity⟩ := hlines _ List.mem_cons_self
  have hread := scanAll_renderAll (fun l hl ↦ hlines l (List.mem_cons_of_mem _ hl)) []
  rw [List.append_nil, ← htemplates] at hread
  have hcons : renderAll ((exceptionLine, [f.vector.toNat]) :: rest)
      = render exceptionLine [f.vector.toNat] ++ renderAll rest := rfl
  rw [readDump, hcons, scan_render hseparated harity]
  simp only [Option.bind_eq_bind, Option.bind_some, hread, if_pos]
  rfl

/-! ## A message under way -/

/-- A message while it is printed: what is still to be put, and whether the transmitter has been
found empty for it. -/
structure Printing where
  left : List (BitVec 8)
  ready : Bool
  console : Console

namespace Printing

/-- The next access to the device. -/
def next (line : LineTime) (p : Printing) : Option Printing :=
  match p.left, p.ready with
  | [], _ => none
  | _ :: _, false =>
    let (ready, c) := com1Port.canSend line p.console
    some ⟨p.left, ready, c⟩
  | byte :: left, true => some ⟨left, false, p.console.outb line com1 byte⟩

/-- Any number of accesses. -/
abbrev Steps (line : LineTime) : Printing → Printing → Prop :=
  Relation.ReflTransGen fun p q ↦ p.next line = some q

variable {line : LineTime} {rounds : ℕ} {c c' : Console} {byte ier : BitVec 8}
  {l : List SentByte} {bytes : List (BitVec 8)} {p q : Printing}

theorem steps_put (h : com1Port.put line byte rounds c = some c') (left : List (BitVec 8)) :
    Steps line ⟨byte :: left, false, c⟩ ⟨left, false, c'⟩ := by
  induction rounds generalizing c with
  | zero => cases h
  | succ rounds ih =>
    have hpoll : next line ⟨byte :: left, false, c⟩ = some ⟨byte :: left,
        decide ((c.arrive line).pending = []), ⟨c.arrive line, c.clock + 1⟩⟩ := by
      rw [next, SerialPort.canSend_eq]
    rw [SerialPort.put_succ] at h
    split_ifs at h with hempty
    · obtain rfl := Option.some.inj h
      rw [decide_eq_true hempty] at hpoll
      exact .tail (.single hpoll) rfl
    · rw [decide_eq_false hempty] at hpoll
      exact .head hpoll (ih h)

/-- **Messages are printed by such steps.** -/
theorem steps_writeAll {messages : List (List (BitVec 8))}
    (h : writeAll line rounds messages c = some c') :
    Steps line ⟨crlf messages.flatten, false, c⟩ ⟨[], false, c'⟩ := by
  rw [writeAll_eq] at h
  generalize crlf messages.flatten = bytes at h ⊢
  induction bytes generalizing c with
  | nil =>
    obtain rfl := Option.some.inj h
    exact .refl
  | cons byte bytes ih =>
    rw [SerialPort.putAll_cons] at h
    obtain ⟨c₁, hput, hrest⟩ := Option.bind_eq_some_iff.mp h
    exact (steps_put hput bytes).trans (ih hrest)

/-- After some of the bytes the line shows these, and the next one is only put when the transmitter
is empty. -/
structure Under (p : Printing) (ier : BitVec 8) (l : List SentByte) (bytes : List (BitVec 8)) :
    Prop where
  shows : ∃ printed, bytes = printed ++ p.left ∧
    p.console.Shows ier (l ++ printed.map serialByte)
  empty : p.ready → p.console.uart.pending = []

/-- The step lemma: an access puts at most the next byte. -/
theorem Under.next (h : p.Under ier l bytes) (hnext : p.next line = some q) :
    q.Under ier l bytes := by
  obtain ⟨left, ready, c⟩ := p
  obtain ⟨printed, hbytes, hshows⟩ := h.shows
  match left, ready with
  | [], _ => cases hnext
  | byte :: left, false =>
    rw [Printing.next, SerialPort.canSend_eq] at hnext
    obtain rfl := Option.some.inj hnext
    exact ⟨⟨printed, hbytes, hshows.arrive⟩, of_decide_eq_true⟩
  | byte :: left, true =>
    obtain rfl := Option.some.inj hnext
    refine ⟨⟨printed ++ [byte], ?_, ?_⟩, fun hready ↦ absurd hready Bool.false_ne_true⟩
    · rw [hbytes, List.append_assoc, List.singleton_append]
    · rw [List.map_append, ← List.append_assoc]
      exact SerialPort.outb_shows hshows (h.empty rfl)

theorem under_of_steps (h : c.Shows ier l) (hsteps : Steps line ⟨bytes, false, c⟩ p) :
    p.Under ier l bytes := by
  induction hsteps with
  | refl =>
    refine ⟨⟨[], rfl, ?_⟩, fun hready ↦ absurd hready Bool.false_ne_true⟩
    rwa [List.map_nil, List.append_nil]
  | tail _ hnext ih => exact ih.next hnext

end Printing

/-! ## The dump gets out -/

section Report

variable {line : LineTime} {c₀ : Console} {messages : List (List (BitVec 8))} {p : Printing}

/-- **A report gets out from any point of a message**, whether the lock is held or not. -/
theorem report_out (hfair : line.Fair)
    (hp : Printing.Steps line ⟨crlf messages.flatten, false, com1Port.init line c₀⟩ p)
    (lines : List (List Piece × List ℕ)) (locked : Bool) :
    ∃ s n old printed, (∀ rounds ≥ n, report line rounds lines ⟨locked, p.console⟩ = some s) ∧
      s.locked = false ∧ old.map SentByte.byte <+: c₀.uart.bytes ∧
      printed <+: crlf messages.flatten ∧
      ∀ k ≥ s.console.uart.pending.length, (s.console.uart.ticks k).sent
        = old ++ (printed ++ crlf (renderAll lines)).map serialByte := by
  obtain ⟨old, hinit, hold⟩ := init_shows line c₀
  obtain ⟨printed, hbytes, hshows⟩ := (Printing.under_of_steps hinit hp).shows
  obtain ⟨c, n, hwritten, hreturns⟩ :=
    SerialPort.exists_putAll hfair (crlf (renderAll lines)) hshows
  refine ⟨⟨false, c⟩, n, old, printed, fun rounds hrounds ↦ ?_, rfl, hold,
    hbytes ▸ List.prefix_append _ _, fun k hk ↦ ?_⟩
  · have hflatten : (lines.map fun l ↦ render l.1 l.2).flatten = renderAll lines := rfl
    simp only [report, Com1.unlock, Com1.lock, Bool.false_eq_true, if_false,
      Option.bind_eq_bind, Option.bind_some, writeAll_eq, hflatten, hreturns rounds hrounds]
  · rw [Uart.ticks_sent hk, hwritten.transcript_eq, List.map_append, List.append_assoc]

/-- **An exception is reported.** From any point of any messages, whether the lock is held or not:
the dispatcher prints a dump and comes to its halt, for every line that goes on sending, and a
reader of what is on the line behind the messages gets what the processor was doing when the
exception came: its number and error code, where it was, and the registers that are printed; for a
page fault also the address. -/
theorem exception_reported (hfair : line.Fair)
    (hp : Printing.Steps line ⟨crlf messages.flatten, false, com1Port.init line c₀⟩ p)
    (locked : Bool) (callee : EntryCpu → EntryCpu) (next : Word) (c : EntryCpu) (i : Interrupted)
    (cr2 : Word) {vec : ℕ} (hvec : vec < handlers.length)
    (herr : i.errorCode.isSome ↔ PushesErrorCode vec) :
    let e := (i.deliver c).handed callee next handlers[vec]
    ∃ s n old printed dump,
      (∀ rounds ≥ n, isrDispatch line rounds e.mem (e.regs rdi) cr2 ⟨locked, p.console⟩ = some s) ∧
      old.map SentByte.byte <+: c₀.uart.bytes ∧ printed <+: crlf messages.flatten ∧
      (∀ k ≥ s.console.uart.pending.length,
        (s.console.uart.ticks k).sent = old ++ (printed ++ dump).map serialByte) ∧
      readDump (uncrlf dump) = some ([[vec], [(i.errorCode.getD 0).toNat],
        [c.rip.toNat, i.cs.toNat, i.rflags.toNat], [(c.regs rsp).toNat, i.ss.toNat],
        [(c.regs rax).toNat, (c.regs rbx).toNat, (c.regs rcx).toNat, (c.regs rdx).toNat],
        [(c.regs rsi).toNat, (c.regs rdi).toNat, (c.regs rbp).toNat]] ++
        (if vec = 14 then [[cr2.toNat]] else []) ++ [[]]) := by
  intro e
  obtain ⟨-, hframe⟩ := trap_entry callee next c
  obtain ⟨hload, -⟩ := hframe vec hvec i herr
  obtain ⟨s, n, old, printed, hreturns, -, hold, hprinted, hsent⟩ :=
    report_out hfair hp (dumpLines (i.frame c (BitVec.ofNat 64 vec)) cr2) locked
  refine ⟨s, n, old, printed, _, fun rounds hrounds ↦ ?_, hold, hprinted, hsent, ?_⟩
  · rw [isrDispatch, hload, hreturns rounds hrounds]
  · have hlength : handlers.length = 32 := rfl
    have hnumber : (BitVec.ofNat 64 vec).toNat = vec := by
      rw [BitVec.toNat_ofNat]
      omega
    have hfault : BitVec.ofNat 64 vec = 14 ↔ vec = 14 := by
      rw [← BitVec.toNat_inj, hnumber]
      rfl
    rw [uncrlf_crlf, readDump_renderAll, dumpLines]
    simp only [Interrupted.frame, hnumber, hfault]
    split_ifs <;> rfl

theorem panic_reported (hfair : line.Fair)
    (hp : Printing.Steps line ⟨crlf messages.flatten, false, com1Port.init line c₀⟩ p)
    (locked : Bool) (location : Option (List (BitVec 8) × ℕ × ℕ)) (message : List (BitVec 8)) :
    ∃ s n old printed,
      (∀ rounds ≥ n, onPanic line rounds location message ⟨locked, p.console⟩ = some s) ∧
      old.map SentByte.byte <+: c₀.uart.bytes ∧ printed <+: crlf messages.flatten ∧
      ∀ k ≥ s.console.uart.pending.length, (s.console.uart.ticks k).sent
        = old ++ (printed ++ crlf (renderAll (panicLines location message))).map serialByte := by
  obtain ⟨s, n, old, printed, hreturns, -, hold, hprinted, hsent⟩ :=
    report_out hfair hp (panicLines location message) locked
  exact ⟨s, n, old, printed, hreturns, hold, hprinted, hsent⟩

/-- A page fault between two accesses of a message, with the lock held. -/
theorem exception_reported_pageFault :
    let u : Uart := ⟨0, 0, 0, 1, false, [], []⟩
    let i : Interrupted := ⟨0x23, 0x202, 0x1b, 0x9000, some 4⟩
    let e := (i.deliver userCpu).handed (returns 0) 0x2000 handlers[14]
    ∃ p s n dump, Printing.Steps everyThird
        ⟨crlf [[0x48, 0x69]].flatten, false, com1Port.init everyThird ⟨u, 0⟩⟩ p ∧ p.ready ∧
      (∀ rounds ≥ n, isrDispatch everyThird rounds e.mem (e.regs rdi) 0xdead000
        ⟨true, p.console⟩ = some s) ∧
      readDump (uncrlf dump) = some [[14], [4], [0x1000, 0x23, 0x202], [0x7000, 0x1b],
        [1, 5, 0x1002, 1], [1, 1, 1], [0xdead000], []] := by
  intro u i e
  have hp : Printing.Steps everyThird
      ⟨crlf [[0x48, 0x69]].flatten, false, com1Port.init everyThird ⟨u, 0⟩⟩ _ := .single rfl
  have hvec : 14 < handlers.length := by decide
  obtain ⟨s, n, -, -, dump, hreturns, -, -, -, hread⟩ := exception_reported fair_everyThird hp true
    (returns 0) 0x2000 userCpu i 0xdead000 hvec (by decide)
  exact ⟨_, s, n, dump, hp, by decide, hreturns, hread⟩

end Report

end Zeroxos
