import Zeroxos.Library.ByteMem

/-!
# System calls

`arch/x86_64/syscall.rs` up to the assembly: the dispatch table and the Rust side of the entry.
Arguments are 64-bit words, the result is an `i64`, which goes back to user code as the word in
`rax`; user code reads a negative result as an error.

`write` reports the length it was asked for, an unsigned argument, as its signed result.
-/

namespace Zeroxos

def sysExit : Word := 0

def sysWrite : Word := 1

def sysRead : Word := 2

/-- `ENOSYS`: the result for an unknown number. -/
def enosys : ℤ := -38

def dispatch (nr _a0 _a1 a2 _a3 _a4 _a5 : Word) : ℤ :=
  if nr = sysExit then 0
  else if nr = sysWrite then a2.toInt
  else if nr = sysRead then 0
  else enosys

structure SyscallFrame where
  /-- Argument 5. -/
  r9 : Word
  /-- Argument 4. -/
  r8 : Word
  /-- Argument 3. -/
  r10 : Word
  /-- Argument 2. -/
  rdx : Word
  /-- Argument 1. -/
  rsi : Word
  /-- Argument 0. -/
  rdi : Word
  /-- The number of the call, from `rax`. -/
  nr : Word
  /-- From `r11`. -/
  rflags : Word
  /-- From `rcx`. -/
  rip : Word
deriving DecidableEq

/-- `syscall_handler`, of the frame that it is passed. -/
def syscallHandler (f : SyscallFrame) : ℤ := dispatch f.nr f.rdi f.rsi f.rdx f.r10 f.r8 f.r9

/-- The word that an `i64` is returned as. -/
def resultWord (r : ℤ) : Word := BitVec.ofInt 64 r

/-- A number the dispatch table has. -/
def KnownSyscall (nr : Word) : Prop := nr = sysExit ∨ nr = sysWrite ∨ nr = sysRead

instance (nr : Word) : Decidable (KnownSyscall nr) := inferInstanceAs (Decidable (_ ∨ _))

/-- **Success can be told from error**: the result of a call is negative exactly when its number is
unknown, it is `ENOSYS` then, and user code reads it as it is. -/
def Separated (nr : Word) (r : ℤ) : Prop :=
  (r < 0 ↔ ¬KnownSyscall nr) ∧ (¬KnownSyscall nr → r = enosys) ∧ (resultWord r).toInt = r

variable {nr a0 a1 a2 a3 a4 a5 : Word}

theorem dispatch_cases :
    (nr = sysExit ∨ nr = sysRead) ∧ dispatch nr a0 a1 a2 a3 a4 a5 = 0 ∨
    nr = sysWrite ∧ dispatch nr a0 a1 a2 a3 a4 a5 = a2.toInt ∨
    ¬KnownSyscall nr ∧ dispatch nr a0 a1 a2 a3 a4 a5 = enosys := by
  unfold dispatch KnownSyscall
  split_ifs with hexit hwrite hread
  · exact .inl ⟨.inl hexit, rfl⟩
  · exact .inr (.inl ⟨hwrite, rfl⟩)
  · exact .inl ⟨.inr hread, rfl⟩
  · exact .inr (.inr ⟨by rintro (h | h | h) <;> contradiction, rfl⟩)

theorem toInt_nonneg_iff : 0 ≤ a2.toInt ↔ a2.toNat < 2 ^ 63 := by
  rw [BitVec.toInt_eq_toNat_cond]
  have := a2.isLt
  split_ifs <;> omega

/-- **Results separate success from error** exactly for the calls that are no `write` of `2 ^ 63`
bytes or more. -/
theorem syscall_result_iff (nr a0 a1 a2 a3 a4 a5 : Word) :
    Separated nr (dispatch nr a0 a1 a2 a3 a4 a5) ↔ (nr = sysWrite → a2.toNat < 2 ^ 63) := by
  rcases @dispatch_cases nr a0 a1 a2 a3 a4 a5 with ⟨hnr, hresult⟩ | ⟨rfl, hresult⟩ |
    ⟨hunknown, hresult⟩
  · have hknown : KnownSyscall nr := hnr.elim .inl fun h ↦ .inr (.inr h)
    have hwrite : nr ≠ sysWrite := by
      rcases hnr with rfl | rfl <;> decide
    rw [hresult]
    exact iff_of_true ⟨iff_of_false (lt_irrefl _) (not_not_intro hknown),
      fun h ↦ absurd hknown h, rfl⟩ fun h ↦ absurd h hwrite
  · have hknown : KnownSyscall sysWrite := .inr (.inl rfl)
    rw [hresult, ← toInt_nonneg_iff]
    constructor
    · intro h _
      exact not_lt.mp (h.1.not.mpr (not_not_intro hknown))
    · intro h
      exact ⟨iff_of_false (not_lt.mpr (h rfl)) (not_not_intro hknown), fun h ↦ absurd hknown h,
        congrArg BitVec.toInt BitVec.ofInt_toInt⟩
  · have hwrite : nr ≠ sysWrite := fun h ↦ hunknown (.inr (.inl h))
    rw [hresult]
    exact iff_of_true ⟨iff_of_true (by decide) hunknown, fun _ ↦ rfl, rfl⟩ fun h ↦ absurd h hwrite

/-- **A known call that looks like an error**: a `write` of `2 ^ 64 - 38` bytes returns what an
unknown call does. -/
theorem write_returns_enosys : KnownSyscall sysWrite ∧
    dispatch sysWrite 1 0xdead (BitVec.ofNat 64 (2 ^ 64 - 38)) 0 0 0 = enosys ∧
      ¬Separated sysWrite (dispatch sysWrite 1 0xdead (BitVec.ofNat 64 (2 ^ 64 - 38)) 0 0 0) := by
  refine ⟨by decide, by decide, fun h ↦ ?_⟩
  exact h.1.mp (by decide) (by decide)

end Zeroxos
