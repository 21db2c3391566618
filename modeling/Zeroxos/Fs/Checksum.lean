import Mathlib.Logic.Function.Iterate

/-!
# The block checksum

`crc32` of zeroxfs, the CRC of IEEE 802.3, one bit at a time.
-/

namespace Zeroxos

/-- A `Vec<u8>`. -/
abbrev Bytes := List (BitVec 8)

/-- The inner loop of `crc32`, once around. -/
def crcBit (crc : BitVec 32) : BitVec 32 :=
  if crc &&& 1 ≠ 0 then (crc >>> 1) ^^^ 0xEDB88320 else crc >>> 1

/-- The outer loop of `crc32`, once around. -/
def crcByte (crc : BitVec 32) (b : BitVec 8) : BitVec 32 := crcBit^[8] (crc ^^^ b.setWidth 32)

def crc32 (data : Bytes) : BitVec 32 := ~~~(data.foldl crcByte 0xFFFFFFFF)

example : crc32 [0x61] = 0xE8B7BE43 := by decide

end Zeroxos
