import Zeroxos.Library.EntryStub

/-!
# Fast system calls

The `syscall` and `sysret` instructions of an x86-64 processor, and the model-specific registers
that say where they lead. They change the level, the segments and the flags without looking at any
descriptor: the registers are trusted to name segments whose descriptors say the same. Nor do they
keep the segments of the caller: a return loads those that the registers name, and not the ones the
call was made from.
-/

namespace Zeroxos

open Reg

/-- The model-specific registers, by number. -/
abbrev Msrs := BitVec 32 → Word

namespace Msrs

/-- Extended features. -/
def efer : BitVec 32 := 0xC0000080

/-- Segments of a call and of the return from it. -/
def star : BitVec 32 := 0xC0000081

/-- Where a call leads. -/
def lstar : BitVec 32 := 0xC0000082

/-- Flags that a call clears. -/
def fmask : BitVec 32 := 0xC0000084

variable (m : Msrs)

/-- The instruction `wrmsr`, of a value in two registers. -/
def wrmsr (ecx eax edx : BitVec 32) : Msrs := Function.update m ecx (edx ++ eax)

/-- The instruction `rdmsr`: the lower and the upper half. -/
def rdmsr (ecx : BitVec 32) : BitVec 32 × BitVec 32 :=
  ((m ecx).extractLsb' 0 32, (m ecx).extractLsb' 32 32)

end Msrs

/-- At which level, in which segments and with which flags code runs. -/
structure Mode where
  cpl : BitVec 2
  cs : BitVec 16
  ss : BitVec 16
  rflags : Word
deriving DecidableEq

/-- The resume flag. -/
def flagRf : Word := 1 <<< 16

end Zeroxos
