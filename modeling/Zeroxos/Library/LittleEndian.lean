import Mathlib.Algebra.Order.Group.Nat
import Mathlib.Data.Nat.ModEq
import Mathlib.Tactic.Ring

/-!
# Little-endian bytes

A number as a fixed number of bytes, the low byte first, as `to_le_bytes` lays it out and
`from_le_bytes` reads it. What is read back is the number up to the width, so the layout determines
every number that fits.
-/

namespace Zeroxos

/-- The low `n` bytes of a number, the lowest first. -/
def toLeBytes : (n x : ℕ) → List (BitVec 8)
  | 0, _ => []
  | n + 1, x => BitVec.ofNat 8 x :: toLeBytes n (x / 2 ^ 8)

/-- The number that bytes denote, the lowest first. -/
def fromLeBytes : List (BitVec 8) → ℕ
  | [] => 0
  | b :: l => b.toNat + 2 ^ 8 * fromLeBytes l

@[simp] theorem length_toLeBytes (n x : ℕ) : (toLeBytes n x).length = n := by
  induction n generalizing x with
  | zero => rfl
  | succ n ih => rw [toLeBytes, List.length_cons, ih]

/-- **Round trip**, up to the width. -/
theorem fromLeBytes_toLeBytes (n x : ℕ) : fromLeBytes (toLeBytes n x) = x % (2 ^ 8) ^ n := by
  induction n generalizing x with
  | zero => simp [toLeBytes, fromLeBytes, Nat.mod_one]
  | succ n ih =>
    rw [toLeBytes, fromLeBytes, ih, BitVec.toNat_ofNat, pow_succ' _ n]
    exact (Nat.mod_mul (x := x) (a := 2 ^ 8) (b := (2 ^ 8) ^ n)).symm

theorem fromLeBytes_lt (l : List (BitVec 8)) : fromLeBytes l < (2 ^ 8) ^ l.length := by
  induction l with
  | nil => exact Nat.one_pos
  | cons b l ih =>
    rw [fromLeBytes, List.length_cons, pow_succ' _ l.length]
    have hb := b.isLt
    omega

/-- **The other round trip**: bytes are laid out again as they were read. -/
theorem toLeBytes_fromLeBytes (l : List (BitVec 8)) : toLeBytes l.length (fromLeBytes l) = l := by
  induction l with
  | nil => rfl
  | cons b l ih =>
    have hhead : BitVec.ofNat 8 (b.toNat + 2 ^ 8 * fromLeBytes l) = b := by
      apply BitVec.eq_of_toNat_eq
      rw [BitVec.toNat_ofNat, Nat.add_mul_mod_self_left, Nat.mod_eq_of_lt b.isLt]
    have htail : (b.toNat + 2 ^ 8 * fromLeBytes l) / 2 ^ 8 = fromLeBytes l := by
      rw [Nat.add_mul_div_left _ _ (by norm_num), Nat.div_eq_of_lt b.isLt, Nat.zero_add]
    rw [fromLeBytes, List.length_cons, toLeBytes, hhead, htail, ih]

theorem toLeBytes_inj {n x y : ℕ} (hx : x < (2 ^ 8) ^ n) (hy : y < (2 ^ 8) ^ n) :
    toLeBytes n x = toLeBytes n y ↔ x = y := by
  refine ⟨fun h ↦ ?_, fun h ↦ h ▸ rfl⟩
  have hread := congrArg fromLeBytes h
  rwa [fromLeBytes_toLeBytes, fromLeBytes_toLeBytes, Nat.mod_eq_of_lt hx, Nat.mod_eq_of_lt hy]
    at hread

end Zeroxos
