import Zeroxos.Fs.Checksum
import Zeroxos.Library.ShiftRegister

/-!
# The checksum as a remainder

The loops of `crc32` are a reflected shift register that takes in the data byte by byte, so the
checksum is the remainder of the data modulo the generator of IEEE 802.3, taken behind a register of
ones, reflected and complemented. The constant coefficient of the generator is one, and a burst of
at most 32 bits changes the checksum.
-/

open Polynomial

namespace Zeroxos

/-- The generator of IEEE 802.3. -/
noncomputable def ieeeGenerator : (ZMod 2)[X] :=
  X ^ 32 + X ^ 26 + X ^ 23 + X ^ 22 + X ^ 16 + X ^ 12 + X ^ 11 + X ^ 10 + X ^ 8 + X ^ 7 + X ^ 5
    + X ^ 4 + X ^ 2 + X + 1

/-- The feedback word is the generator in reflected form. -/
theorem generator_eq_ieeeGenerator : generator (0xEDB88320 : BitVec 32) = ieeeGenerator := by
  have hbits : toPoly (0xEDB88320 : BitVec 32) = ∑ k ∈ Finset.range 32,
      monomial (32 - 1 - k) (bitCoeff ((0xEDB88320 : BitVec 32).getLsbD k)) := rfl
  rw [generator, hbits, ieeeGenerator]
  simp [Finset.sum_range_succ, bitCoeff, ← C_mul_X_pow_eq_monomial]
  ring

/-- The inner loop is a step of the register. -/
theorem crcBit_eq_registerStep : crcBit = registerStep 0xEDB88320 := by
  ext1 crc
  have hbit : (crc &&& 1 ≠ 0) ↔ crc.getLsbD 0 = true := by
    have hand : crc &&& 1 = BitVec.setWidth 32 (BitVec.ofBool (crc.getLsbD 0)) :=
      BitVec.and_one_eq_setWidth_ofBool_getLsbD
    rw [hand]
    cases crc.getLsbD 0 <;> decide
  rw [crcBit, registerStep]
  simp only [hbit]

theorem crcByte_eq_registerFeed : crcByte = registerFeed 0xEDB88320 := by
  ext1 crc
  ext1 b
  rw [crcByte, crcBit_eq_registerStep, registerFeed]

theorem toPoly_allOnes (w : ℕ) : toPoly (BitVec.allOnes w) = ∑ i ∈ Finset.range w, X ^ i := by
  ext j
  rw [toPoly, coeff_bitPoly, finsetSum_coeff]
  simp only [coeff_X_pow, Finset.sum_ite_eq, Finset.mem_range, BitVec.getLsbD_allOnes]
  split_ifs with hj
  · rw [decide_eq_true (by omega)]
    rfl
  · rfl

/-- **The checksum of IEEE 802.3**: of every byte string `crc32` is the complement of the reflected
remainder, modulo the generator, of the message times `X ^ 32` and a register of ones shifted past
the message. -/
theorem crc32_eq_remainder (data : Bytes) :
    crc32 data = ~~~reflect 32 ((messagePoly data * X ^ 32
      + (∑ i ∈ Finset.range 32, X ^ i) * X ^ (8 * data.length)) %ₘ ieeeGenerator) := by
  rw [← toPoly_allOnes, ← generator_eq_ieeeGenerator, ← toPoly_foldl (by decide), reflect_toPoly,
    crc32, crcByte_eq_registerFeed]
  rfl

/-- **Bursts.** Byte strings of one length with the same checksum are equal, if all the bits in
which they differ are among 32 consecutive ones. -/
theorem eq_of_crc32_eq {data data' : Bytes} (hlen : data.length = data'.length)
    (hwithin : DifferWithin 32 data data') (h : crc32 data = crc32 data') : data = data' := by
  rw [crc32, crc32, crcByte_eq_registerFeed, BitVec.not_inj] at h
  exact hwithin.eq_of_foldl_eq hlen (by decide) (by decide) h

end Zeroxos
