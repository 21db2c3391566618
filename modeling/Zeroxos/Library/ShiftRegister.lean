import Mathlib.Algebra.CharP.Two
import Mathlib.Algebra.Field.ZMod
import Mathlib.Algebra.Polynomial.RingDivision
import Mathlib.RingTheory.Coprime.Lemmas
import Mathlib.Tactic.LinearCombination

/-!
# Reflected shift registers

A sequence of bits is a polynomial over the field of two elements, its first bit the leading
coefficient, and a register is the polynomial of its bits from the low end up.

## Division

One step of a *reflected* register shifts it to the right and, when a one falls out, adds the
feedback word. On polynomials that is multiplication by `X` modulo the *generator*, the feedback
word below a leading one. A register that takes in words of `v` bits, adding each at its low end
before the next `v` steps, therefore holds the remainder of the message it has taken in.

## Bursts

When the constant coefficient of the generator is one, `X` can be cancelled modulo the generator. So
two messages of one length that leave the same remainder are equal if all the bits in which they
differ lie within the width of the register.
-/

open Polynomial

namespace Zeroxos

/-! ## Bits as coefficients -/

/-- A bit as an element of the field of two elements. -/
def bitCoeff (b : Bool) : ZMod 2 := if b then 1 else 0

theorem bitCoeff_xor (a b : Bool) : bitCoeff (a ^^ b) = bitCoeff a + bitCoeff b := by
  cases a <;> cases b <;> decide

theorem bitCoeff_injective : Function.Injective bitCoeff := by decide

/-- The polynomial of `n` bits, the first of them the leading coefficient. -/
noncomputable def bitPoly (n : ℕ) (f : ℕ → Bool) : (ZMod 2)[X] :=
  ∑ k ∈ Finset.range n, monomial (n - 1 - k) (bitCoeff (f k))

variable {n m j : ℕ} {f f' : ℕ → Bool}

theorem coeff_bitPoly (n : ℕ) (f : ℕ → Bool) (j : ℕ) :
    (bitPoly n f).coeff j = if j < n then bitCoeff (f (n - 1 - j)) else 0 := by
  rw [bitPoly, finsetSum_coeff]
  split_ifs with hj
  · -- only the bit that lies `j` before the last has a coefficient here
    rw [Finset.sum_eq_single (n - 1 - j)]
    · rw [coeff_monomial, if_pos (by omega)]
    · intro k hk hne
      rw [Finset.mem_range] at hk
      rw [coeff_monomial, if_neg (by omega)]
    · intro hout
      exact absurd (Finset.mem_range.mpr (by omega)) hout
  · apply Finset.sum_eq_zero
    intro k hk
    rw [Finset.mem_range] at hk
    rw [coeff_monomial, if_neg (by omega)]

theorem degree_bitPoly_lt (n : ℕ) (f : ℕ → Bool) : (bitPoly n f).degree < n := by
  rw [degree_lt_iff_coeff_zero]
  intro j hj
  rw [coeff_bitPoly, if_neg (not_lt.mpr hj)]

theorem bitPoly_inj : bitPoly n f = bitPoly n f' ↔ ∀ k < n, f k = f' k := by
  constructor
  · intro h k hk
    have hcoeff := congrArg (fun p ↦ p.coeff (n - 1 - k)) h
    have hback : n - 1 - (n - 1 - k) = k := by omega
    simp only [coeff_bitPoly, if_pos (show n - 1 - k < n by omega), hback] at hcoeff
    exact bitCoeff_injective hcoeff
  · intro h
    apply Finset.sum_congr rfl
    intro k hk
    rw [h k (Finset.mem_range.mp hk)]

theorem bitPoly_xor (n : ℕ) (f f' : ℕ → Bool) :
    bitPoly n (fun k ↦ f k ^^ f' k) = bitPoly n f + bitPoly n f' := by
  simp only [bitPoly, bitCoeff_xor, map_add, Finset.sum_add_distrib]

theorem bitPoly_add (m n : ℕ) (f : ℕ → Bool) :
    bitPoly (m + n) f = X ^ n * bitPoly m f + bitPoly n fun k ↦ f (m + k) := by
  ext j
  rw [coeff_add, coeff_X_pow_mul', coeff_bitPoly, coeff_bitPoly, coeff_bitPoly]
  rcases Nat.lt_or_ge j n with hj | hj
  · rw [if_pos (by omega), if_neg (by omega), if_pos hj, zero_add]
    congr 2
    omega
  · rw [if_pos hj, if_neg (not_lt.mpr hj), add_zero]
    by_cases hlt : j < m + n
    · rw [if_pos hlt, if_pos (by omega)]
      congr 2
      omega
    · rw [if_neg hlt, if_neg (by omega)]

/-! ## Registers -/

section Register

variable {w v : ℕ} {g r r' : BitVec w}

/-- The polynomial of a register. -/
noncomputable def toPoly (r : BitVec w) : (ZMod 2)[X] := bitPoly w r.getLsbD

theorem toPoly_xor (r r' : BitVec w) : toPoly (r ^^^ r') = toPoly r + toPoly r' := by
  rw [toPoly, toPoly, toPoly, ← bitPoly_xor]
  congr 1
  ext k
  exact BitVec.getLsbD_xor

theorem toPoly_setWidth (hv : v ≤ w) (b : BitVec v) :
    toPoly (b.setWidth w) = X ^ (w - v) * toPoly b := by
  ext j
  rw [toPoly, toPoly, coeff_X_pow_mul', coeff_bitPoly, coeff_bitPoly, BitVec.getLsbD_setWidth]
  rcases Nat.lt_or_ge j w with hj | hj
  · rw [if_pos hj, decide_eq_true (by omega), Bool.true_and]
    split_ifs with hlow hin
    · congr 2
      omega
    · omega
    · rw [BitVec.getLsbD_of_ge _ _ (by omega)]
      rfl
  · rw [if_neg (by omega)]
    split_ifs with hlow hin
    · omega
    · rfl
    · rfl

/-- Multiplied by `X`, the bits of a register move up by one, and none of them is lost. -/
theorem coeff_X_mul_toPoly (r : BitVec w) {j : ℕ} (hj : j ≤ w) :
    (X * toPoly r).coeff j = bitCoeff (r.getLsbD (w - j)) := by
  rw [toPoly, ← pow_one X, coeff_X_pow_mul', coeff_bitPoly]
  by_cases hone : 1 ≤ j
  · rw [if_pos hone, if_pos (by omega)]
    congr 2
    omega
  · rw [if_neg hone, BitVec.getLsbD_of_ge _ _ (by omega)]
    rfl

/-- A shift to the right multiplies by `X`, up to the bit that falls out. -/
theorem toPoly_shiftRight (r : BitVec w) :
    toPoly (r >>> 1) + C (bitCoeff (r.getLsbD 0)) * X ^ w = X * toPoly r := by
  ext j
  rw [coeff_add, coeff_C_mul_X_pow]
  rcases lt_trichotomy j w with hj | rfl | hj
  · rw [coeff_X_mul_toPoly r hj.le, toPoly, coeff_bitPoly, BitVec.getLsbD_ushiftRight, if_pos hj,
      if_neg (by omega), add_zero]
    congr 2
    omega
  · rw [coeff_X_mul_toPoly r le_rfl, toPoly, coeff_bitPoly, if_neg (lt_irrefl _), if_pos rfl,
      zero_add, Nat.sub_self]
  · rw [toPoly, toPoly, ← pow_one X, coeff_X_pow_mul', coeff_bitPoly, coeff_bitPoly,
      if_neg (by omega), if_neg (by omega), if_pos (by omega), if_neg (by omega), add_zero]

/-- One step: a shift to the right, with feedback when a one falls out. -/
def registerStep (g r : BitVec w) : BitVec w :=
  if r.getLsbD 0 then (r >>> 1) ^^^ g else r >>> 1

/-- The polynomial a register with this feedback divides by. -/
noncomputable def generator (g : BitVec w) : (ZMod 2)[X] := X ^ w + toPoly g

theorem generator_monic (g : BitVec w) : (generator g).Monic :=
  monic_X_pow_add (degree_bitPoly_lt w _)

theorem degree_generator (g : BitVec w) : (generator g).degree = w := by
  rw [generator, degree_add_eq_left_of_degree_lt, degree_X_pow]
  rw [degree_X_pow]
  exact degree_bitPoly_lt w _

theorem toPoly_registerStep (g r : BitVec w) :
    toPoly (registerStep g r) = X * toPoly r + C (bitCoeff (r.getLsbD 0)) * generator g := by
  rw [← toPoly_shiftRight, registerStep, generator]
  split_ifs with hbit
  · -- the leading one of the generator and the bit that fell out cancel
    rw [toPoly_xor, hbit, bitCoeff, if_pos rfl, map_one, one_mul, one_mul, add_assoc,
      ← add_assoc (X ^ w) (X ^ w), CharTwo.add_self_eq_zero, zero_add]
  · rw [Bool.not_eq_true] at hbit
    rw [hbit, bitCoeff, if_neg Bool.false_ne_true, map_zero, zero_mul, zero_mul, add_zero, add_zero]

/-- **Steps multiply** by `X`, modulo the generator. -/
theorem generator_dvd_registerStep (g r : BitVec w) (k : ℕ) :
    generator g ∣ toPoly ((registerStep g)^[k] r) - X ^ k * toPoly r := by
  induction k with
  | zero => simp
  | succ k ih =>
    rw [Function.iterate_succ_apply', toPoly_registerStep]
    set q := (registerStep g)^[k] r
    have hsplit : X * toPoly q + C (bitCoeff (q.getLsbD 0)) * generator g - X ^ (k + 1) * toPoly r
        = X * (toPoly q - X ^ k * toPoly r) + C (bitCoeff (q.getLsbD 0)) * generator g := by ring
    rw [hsplit]
    exact dvd_add (ih.mul_left X) (Dvd.intro_left _ rfl)

/-! ## Messages -/

/-- Take in a word: add it at the low end, and step past it. -/
def registerFeed (g r : BitVec w) (b : BitVec v) : BitVec w :=
  (registerStep g)^[v] (r ^^^ b.setWidth w)

/-- The bits of a message, word by word and each from the low end up. -/
def bitAt (l : List (BitVec v)) (k : ℕ) : Bool := (l.getD (k / v) 0).getLsbD (k % v)

/-- The polynomial of a message. -/
noncomputable def messagePoly (l : List (BitVec v)) : (ZMod 2)[X] :=
  bitPoly (v * l.length) (bitAt l)

theorem messagePoly_cons (b : BitVec v) (l : List (BitVec v)) :
    messagePoly (b :: l) = X ^ (v * l.length) * toPoly b + messagePoly l := by
  have hlen : v * (b :: l).length = v + v * l.length := by
    rw [List.length_cons]
    ring
  have hhead : bitPoly v (bitAt (b :: l)) = toPoly b := by
    rw [toPoly, bitPoly_inj]
    intro k hk
    rw [bitAt, Nat.div_eq_of_lt hk, Nat.mod_eq_of_lt hk, List.getD_cons_zero]
  have htail : bitPoly (v * l.length) (fun k ↦ bitAt (b :: l) (v + k)) = messagePoly l := by
    rw [messagePoly, bitPoly_inj]
    intro k hk
    have hv : 0 < v := Nat.pos_of_lt_mul_right hk
    rw [bitAt, bitAt, Nat.add_div_left k hv, Nat.add_mod_left, List.getD_cons_succ]
  rw [messagePoly, hlen, bitPoly_add, hhead, htail]

theorem eq_of_messagePoly_eq {l l' : List (BitVec v)} (hlen : l.length = l'.length)
    (h : messagePoly l = messagePoly l') : l = l' := by
  induction l generalizing l' with
  | nil => exact (List.length_eq_zero_iff.mp hlen.symm).symm
  | cons b l ih =>
    obtain _ | ⟨b', l'⟩ := l'
    · exact absurd hlen (Nat.succ_ne_zero _)
    · have hlen' : l.length = l'.length := Nat.succ_injective hlen
      have hbits : ∀ k < v * (b :: l).length, bitAt (b :: l) k = bitAt (b' :: l') k := by
        apply bitPoly_inj.mp
        rw [messagePoly, messagePoly, ← hlen] at h
        exact h
      have hb : b = b' := by
        apply BitVec.eq_of_getLsbD_eq
        intro i hi
        have hbit := hbits i (lt_of_lt_of_le hi (Nat.le_mul_of_pos_right v (Nat.succ_pos _)))
        rwa [bitAt, bitAt, Nat.div_eq_of_lt hi, Nat.mod_eq_of_lt hi, List.getD_cons_zero,
          List.getD_cons_zero] at hbit
      rw [messagePoly_cons, messagePoly_cons, hb, hlen'] at h
      rw [hb, ih hlen' (add_left_cancel h)]

/-- The register after a message, modulo the generator. -/
theorem generator_dvd_foldl (hv : v ≤ w) (g r : BitVec w) (l : List (BitVec v)) :
    generator g ∣ toPoly (l.foldl (registerFeed g) r)
      - (messagePoly l * X ^ w + toPoly r * X ^ (v * l.length)) := by
  induction l generalizing r with
  | nil => simp [messagePoly, bitPoly]
  | cons b l ih =>
    have hfeed := generator_dvd_registerStep g (r ^^^ b.setWidth w) v
    rw [toPoly_xor, toPoly_setWidth hv] at hfeed
    have hpow : (X : (ZMod 2)[X]) ^ w = X ^ v * X ^ (w - v) := by
      rw [← pow_add, Nat.add_sub_cancel' hv]
    have hlen : v * (b :: l).length = v + v * l.length := by
      rw [List.length_cons]
      ring
    rw [List.foldl_cons]
    convert dvd_add (ih (registerFeed g r b)) (hfeed.mul_right (X ^ (v * l.length))) using 1
    rw [messagePoly_cons, hlen, registerFeed, pow_add, hpow]
    ring

/-- **Division.** A register holds the remainder of the message it has taken in, behind what was
in it before. -/
theorem toPoly_foldl (hv : v ≤ w) (g r : BitVec w) (l : List (BitVec v)) :
    toPoly (l.foldl (registerFeed g) r) =
      (messagePoly l * X ^ w + toPoly r * X ^ (v * l.length)) %ₘ generator g := by
  rw [← modByMonic_eq_of_dvd_sub (generator_monic g) (generator_dvd_foldl hv g r l), eq_comm,
    modByMonic_eq_self_iff (generator_monic g), degree_generator]
  exact degree_bitPoly_lt w _

/-! ## Remainders read back as registers -/

/-- The register with these bits, from the low end up. -/
def ofBits : (w : ℕ) → (ℕ → Bool) → BitVec w
  | 0, _ => 0
  | w + 1, f => BitVec.cons (f w) (ofBits w f)

theorem getLsbD_ofBits {i : ℕ} (hi : i < w) (f : ℕ → Bool) : (ofBits w f).getLsbD i = f i := by
  induction w with
  | zero => exact absurd hi (Nat.not_lt_zero i)
  | succ w ih =>
    rw [ofBits, BitVec.getLsbD_cons]
    split_ifs with hlast
    · rw [hlast]
    · exact ih (by omega)

/-- The register of a polynomial: bit `i` is the coefficient of `X ^ (w - 1 - i)`. -/
noncomputable def reflect (w : ℕ) (p : (ZMod 2)[X]) : BitVec w :=
  ofBits w fun i ↦ decide (p.coeff (w - 1 - i) = 1)

@[simp] theorem reflect_toPoly (r : BitVec w) : reflect w (toPoly r) = r := by
  apply BitVec.eq_of_getLsbD_eq
  intro i hi
  have hback : w - 1 - (w - 1 - i) = i := by omega
  rw [reflect, getLsbD_ofBits hi, toPoly, coeff_bitPoly, if_pos (by omega), hback]
  cases r.getLsbD i <;> decide

/-! ## Bursts -/

/-- The bits in which a message differs from another are among `w` consecutive ones. -/
def DifferWithin (w : ℕ) (l l' : List (BitVec v)) : Prop :=
  ∃ s, ∀ k < v * l.length, bitAt l k ≠ bitAt l' k → s ≤ k ∧ k < s + w

/-- A multiple of a polynomial that `X` is prime to, whose coefficients lie within its degree. -/
theorem eq_zero_of_dvd_mul_X_pow {G p : (ZMod 2)[X]} {s e : ℕ} (hG : G.Monic) (hw : G.degree = w)
    (hcoprime : G.coeff 0 = 1) (hdvd : G ∣ p * X ^ e)
    (hp : ∀ j, p.coeff j ≠ 0 → s ≤ j ∧ j < s + w) : p = 0 := by
  have hX : IsCoprime G X := by
    refine ⟨1, -G.divX, ?_⟩
    have hdivX := divX_mul_X_add G
    rw [hcoprime, map_one] at hdivX
    linear_combination -hdivX
  have hlow : X ^ s ∣ p := by
    rw [X_pow_dvd_iff]
    intro j hj
    by_contra hne
    exact absurd (hp j hne).1 (not_le.mpr hj)
  obtain ⟨q, rfl⟩ := hlow
  have hq : G ∣ q := by
    have hpq : G ∣ X ^ s * q := hX.pow_right.dvd_of_dvd_mul_right hdvd
    exact hX.pow_right.dvd_of_dvd_mul_left hpq
  have hdeg : q.degree < w := by
    rw [degree_lt_iff_coeff_zero]
    intro j hj
    by_contra hne
    have hin := hp (j + s) (by rwa [coeff_X_pow_mul])
    omega
  have hzero : q = 0 := by
    by_contra hne
    exact hG.not_dvd_of_degree_lt hne (hw ▸ hdeg) hq
  rw [hzero, mul_zero]

/-- **A burst is noticed** by a register whose generator has constant coefficient one. -/
theorem DifferWithin.eq_of_foldl_eq {l l' : List (BitVec v)} (h : DifferWithin w l l')
    (hlen : l.length = l'.length) (hv : v ≤ w) (hg : g.getLsbD (w - 1) = true) {r : BitVec w}
    (heq : l.foldl (registerFeed g) r = l'.foldl (registerFeed g) r) : l = l' := by
  apply eq_of_messagePoly_eq hlen
  obtain ⟨s, hs⟩ := h
  have hw : 0 < w := Nat.pos_of_ne_zero fun hzero ↦ by
    subst hzero
    rw [BitVec.getLsbD_of_ge _ _ (by omega)] at hg
    exact Bool.false_ne_true hg
  -- the registers differ by the difference of the messages
  have hdvd : generator g ∣ (messagePoly l - messagePoly l') * X ^ w := by
    have hsub := dvd_sub (generator_dvd_foldl hv g r l') (generator_dvd_foldl hv g r l)
    rw [heq, hlen] at hsub
    convert hsub using 1
    ring
  have hcoprime : (generator g).coeff 0 = 1 := by
    rw [generator, coeff_add, coeff_X_pow, if_neg (by omega), zero_add, toPoly, coeff_bitPoly,
      if_pos hw, Nat.sub_zero, hg]
    rfl
  have hwindow : ∀ j, (messagePoly l - messagePoly l').coeff j ≠ 0 →
      v * l.length - (s + w) ≤ j ∧ j < v * l.length - (s + w) + w := by
    intro j hj
    rw [coeff_sub, messagePoly, messagePoly, ← hlen, coeff_bitPoly, coeff_bitPoly] at hj
    split_ifs at hj with hlt
    · have hbit : bitAt l (v * l.length - 1 - j) ≠ bitAt l' (v * l.length - 1 - j) := fun heq ↦ by
        rw [heq, sub_self] at hj
        exact hj rfl
      have hin := hs _ (by omega) hbit
      omega
    · exact absurd (sub_self 0) hj
  exact sub_eq_zero.mp (eq_zero_of_dvd_mul_X_pow (generator_monic g) (degree_generator g) hcoprime
    hdvd hwindow)

end Register

end Zeroxos
