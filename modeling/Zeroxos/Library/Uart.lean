import Mathlib.Data.List.Basic
import Mathlib.Tactic.Common

/-!
# The transmitter of a 16550 UART

The device as a program sees it: eight ports, some of which are two registers, depending on a bit of
the line control register. Bytes written to the data port wait in a buffer, of sixteen bytes or of
one, and leave in order, whenever the line is free, with the settings that are in force then. A byte
that does not fit is lost.

## The transcript

What matters of it is the `transcript`: what has left and what will. The device works on it without
changing it, so as long as the settings stay and nothing is written that does not fit, it can be
spoken of as if every byte left the moment it was written.
-/

namespace Zeroxos

/-- A byte on the line, with the divisor of the clock and the line control it was sent with. -/
structure SentByte where
  divisor : BitVec 16
  mode : BitVec 8
  byte : BitVec 8
deriving DecidableEq

/-- The registers and the buffer. -/
structure Uart where
  /-- Interrupt enable. -/
  ier : BitVec 8
  /-- Line control. -/
  lcr : BitVec 8
  /-- Modem control. -/
  mcr : BitVec 8
  divisor : BitVec 16
  /-- Whether the buffer has sixteen places, and not one. -/
  fifo : Bool
  /-- Bytes that wait, the oldest first. -/
  pending : List (BitVec 8)
  /-- Bytes that have left. -/
  sent : List SentByte

namespace Uart

variable (u : Uart)

/-- Ports 0 and 1 are the divisor. -/
def dlab : Bool := u.lcr.getLsbD 7

def depth : ℕ := if u.fifo then 16 else 1

/-- The line status register: the transmitter is empty. -/
def lineStatus : BitVec 8 := if u.pending = [] then 0x60 else 0

/-- Write a port. -/
def out (offset : ℕ) (v : BitVec 8) : Uart :=
  match offset with
  | 0 =>
    if u.dlab then { u with divisor := u.divisor.extractLsb' 8 8 ++ v }
    else if u.pending.length < u.depth then { u with pending := u.pending ++ [v] }
    else u
  | 1 =>
    if u.dlab then { u with divisor := v ++ u.divisor.extractLsb' 0 8 }
    else { u with ier := v }
  | 2 =>
    -- the buffer is emptied on request, and when its size changes
    { u with
      fifo := v.getLsbD 0
      pending :=
        if v.getLsbD 0 = u.fifo ∧ ¬(v.getLsbD 0 ∧ v.getLsbD 2) then u.pending else [] }
  | 3 => { u with lcr := v }
  | 4 => { u with mcr := v }
  | _ => u

/-- Read a port. Only the line status is of interest. -/
def inp (offset : ℕ) : BitVec 8 := if offset = 5 then u.lineStatus else 0

/-- The line is free: the oldest byte leaves. -/
def tick : Uart :=
  match u.pending with
  | [] => u
  | b :: rest => { u with pending := rest, sent := u.sent ++ [⟨u.divisor, u.lcr, b⟩] }

/-- The line is free so many times. -/
def ticks : ℕ → Uart → Uart
  | 0, u => u
  | n + 1, u => ticks n u.tick

/-- What has left, and what is to leave with the settings that are in force. -/
def transcript : List SentByte := u.sent ++ u.pending.map fun b ↦ ⟨u.divisor, u.lcr, b⟩

/-- The registers that a program sets. -/
structure Settings where
  ier : BitVec 8
  lcr : BitVec 8
  mcr : BitVec 8
  divisor : BitVec 16
  fifo : Bool
deriving DecidableEq

def settings : Settings := ⟨u.ier, u.lcr, u.mcr, u.divisor, u.fifo⟩

/-- What writing a port does to them. -/
def Settings.out (s : Settings) (offset : ℕ) (v : BitVec 8) : Settings :=
  match offset with
  | 0 => if s.lcr.getLsbD 7 then { s with divisor := s.divisor.extractLsb' 8 8 ++ v } else s
  | 1 =>
    if s.lcr.getLsbD 7 then { s with divisor := v ++ s.divisor.extractLsb' 0 8 }
    else { s with ier := v }
  | 2 => { s with fifo := v.getLsbD 0 }
  | 3 => { s with lcr := v }
  | 4 => { s with mcr := v }
  | _ => s

/-- The bytes that were written, sent or not. -/
def bytes : List (BitVec 8) := u.sent.map SentByte.byte ++ u.pending

variable {u}

@[simp] theorem tick_settings : u.tick.settings = u.settings := by
  rw [tick]
  split <;> rfl

@[simp] theorem tick_transcript : u.tick.transcript = u.transcript := by
  cases h : u.pending with
  | nil => rw [tick, h]
  | cons b rest => simp [tick, transcript, h]

@[simp] theorem ticks_settings (n : ℕ) : (ticks n u).settings = u.settings := by
  induction n generalizing u with
  | zero => rfl
  | succ n ih => rw [ticks, ih, tick_settings]

/-- **The device does not change the transcript.** -/
@[simp] theorem ticks_transcript (n : ℕ) : (ticks n u).transcript = u.transcript := by
  induction n generalizing u with
  | zero => rfl
  | succ n ih => rw [ticks, ih, tick_transcript]

theorem out_settings (u : Uart) (offset : ℕ) (v : BitVec 8) :
    (u.out offset v).settings = u.settings.out offset v := by
  have hdlab : u.settings.lcr.getLsbD 7 = u.dlab := rfl
  match offset with
  | 0 | 1 =>
    rw [out, Settings.out, hdlab]
    split_ifs <;> rfl
  | 2 | 3 | 4 => rfl
  | n + 5 => rfl

/-- A write that is no data writes no byte, though it may drop some. -/
theorem out_bytes {offset : ℕ} (h : offset ≠ 0 ∨ u.dlab) (v : BitVec 8) :
    (u.out offset v).bytes <+: u.bytes := by
  match offset with
  | 0 =>
    rw [out, if_pos (h.resolve_left (not_not_intro rfl))]
    exact List.prefix_refl _
  | 1 =>
    rw [out]
    split_ifs <;> exact List.prefix_refl _
  | 2 =>
    rw [out]
    by_cases hkeep : v.getLsbD 0 = u.fifo ∧ ¬(v.getLsbD 0 ∧ v.getLsbD 2)
    · rw [if_pos hkeep]
      exact List.prefix_refl _
    · rw [if_neg hkeep, bytes, List.append_nil]
      exact List.prefix_append _ _
  | 3 | 4 => exact List.prefix_refl _
  | n + 5 => exact List.prefix_refl _

@[simp] theorem ticks_bytes (n : ℕ) : (ticks n u).bytes = u.bytes := by
  induction n generalizing u with
  | zero => rfl
  | succ n ih =>
    rw [ticks, ih]
    cases h : u.pending with
    | nil => rw [tick, h]
    | cons b rest => simp [tick, bytes, h]

theorem tick_pending_length : u.tick.pending.length = u.pending.length - 1 := by
  cases h : u.pending with
  | nil => rw [tick, h, h]; rfl
  | cons b rest => simp [tick, h]

theorem ticks_pending_length (n : ℕ) : (ticks n u).pending.length = u.pending.length - n := by
  induction n generalizing u with
  | zero => rfl
  | succ n ih =>
    rw [ticks, ih, tick_pending_length]
    omega

theorem ticks_sent {n : ℕ} (h : u.pending.length ≤ n) : (ticks n u).sent = u.transcript := by
  have hempty : (ticks n u).pending = [] := by
    rw [← List.length_eq_zero_iff, ticks_pending_length]
    omega
  rw [← ticks_transcript n, transcript, hempty, List.map_nil, List.append_nil]

theorem out_data (hdata : ¬u.dlab) (hempty : u.pending = []) (b : BitVec 8) :
    (u.out 0 b).transcript = u.transcript ++ [⟨u.divisor, u.lcr, b⟩] ∧
      (u.out 0 b).settings = u.settings := by
  have hroom : u.pending.length < u.depth := by
    rw [hempty, depth]
    split_ifs <;> decide
  rw [out, if_neg hdata, if_pos hroom]
  refine ⟨?_, rfl⟩
  simp [transcript, hempty]

theorem lineStatus_and (u : Uart) : u.lineStatus &&& 0x20 ≠ 0 ↔ u.pending = [] := by
  rw [lineStatus]
  split_ifs with h
  · exact iff_of_true (by decide) h
  · exact iff_of_false (by decide) h

end Uart

end Zeroxos
