import Zeroxos.Library.ByteMem
import Zeroxos.Library.LittleEndian

/-!
# Data laid out in memory

A structure without padding is the concatenation of its fields, each field the little-endian bytes
of a number, an array the concatenation of its elements. `Holds` says that such a list of bytes is
in memory at an address. It splits along concatenation, so that a field is found at the sum of the
sizes before it, and at the end of the splitting a number is read back. `writeBytes` puts a list
there, and leaves alone what is `Apart`.

Inside a word, fields are put together with shifts and `or`, which is addition as long as they do
not overlap.
-/

namespace Zeroxos

theorem toNat_or_shiftLeft {w i : ℕ} {x y : BitVec w} (hx : x.toNat < 2 ^ i)
    (hy : 2 ^ i * y.toNat < 2 ^ w) : (x ||| y <<< i).toNat = x.toNat + 2 ^ i * y.toNat := by
  rw [BitVec.toNat_or, BitVec.toNat_shiftLeft, Nat.shiftLeft_eq, Nat.mul_comm y.toNat,
    Nat.mod_eq_of_lt hy, Nat.or_comm, Nat.add_comm]
  exact (Nat.two_pow_add_eq_or_of_lt hx _).symm

theorem toNat_append {w v : ℕ} (x : BitVec w) (y : BitVec v) :
    (x ++ y).toNat = x.toNat * 2 ^ v + y.toNat := by
  rw [BitVec.toNat_append, Nat.shiftLeft_eq, Nat.mul_comm]
  exact (Nat.two_pow_add_eq_or_of_lt y.isLt _).symm

theorem toNat_and_mask {w : ℕ} (x mask : BitVec w) {k : ℕ} (h : mask.toNat = 2 ^ k - 1) :
    (x &&& mask).toNat = x.toNat % 2 ^ k := by
  rw [BitVec.toNat_and, h, Nat.and_two_pow_sub_one_eq_mod]

namespace ByteMem

variable {m : ByteMem} {a : Word} {l l' : List (BitVec 8)} {n : ℕ}

/-- The `n` bytes from `a` up. -/
def bytes (m : ByteMem) : ℕ → Word → List (BitVec 8)
  | 0, _ => []
  | n + 1, a => m a :: m.bytes n (a + 1)

/-- The number in the `n` bytes from `a` up. -/
def num (m : ByteMem) (n : ℕ) (a : Word) : ℕ := fromLeBytes (m.bytes n a)

/-- The bytes `l` are in memory at `a`. -/
def Holds (m : ByteMem) (a : Word) (l : List (BitVec 8)) : Prop := m.bytes l.length a = l

theorem holds_nil : m.Holds a [] := rfl

theorem holds_cons {b : BitVec 8} : m.Holds a (b :: l) ↔ m a = b ∧ m.Holds (a + 1) l :=
  List.cons_eq_cons

theorem holds_append :
    m.Holds a (l ++ l') ↔ m.Holds a l ∧ m.Holds (a + BitVec.ofNat 64 l.length) l' := by
  induction l generalizing a with
  | nil => simp [holds_nil]
  | cons b l ih =>
    have haddr : a + 1 + BitVec.ofNat 64 l.length = a + BitVec.ofNat 64 (l.length + 1) := by
      bv_omega
    rw [List.cons_append, holds_cons, holds_cons, ih, haddr, and_assoc, List.length_cons]

theorem length_flatMap_of {α : Type*} {f : α → List (BitVec 8)} {k : ℕ}
    (hf : ∀ x, (f x).length = k) (xs : List α) : (xs.flatMap f).length = k * xs.length := by
  induction xs with
  | nil => rfl
  | cons x xs ih =>
    rw [List.flatMap_cons, List.length_append, hf, ih, List.length_cons, Nat.mul_succ, Nat.add_comm]

theorem Holds.flatMap {α : Type*} {f : α → List (BitVec 8)} {xs : List α} {k i : ℕ}
    (hf : ∀ x, (f x).length = k) (h : m.Holds a (xs.flatMap f)) (hi : i < xs.length) :
    m.Holds (a + BitVec.ofNat 64 (k * i)) (f xs[i]) := by
  induction xs generalizing a i with
  | nil => exact absurd hi (Nat.not_lt_zero i)
  | cons x xs ih =>
    rw [List.flatMap_cons, holds_append, hf] at h
    cases i with
    | zero => simpa using h.1
    | succ i =>
      have haddr : a + BitVec.ofNat 64 k + BitVec.ofNat 64 (k * i)
          = a + BitVec.ofNat 64 (k * (i + 1)) := by
        rw [Nat.mul_succ, Nat.add_comm (k * i), BitVec.ofNat_add, BitVec.add_assoc]
      have hrest := ih h.2 (Nat.lt_of_succ_lt_succ hi)
      rwa [haddr] at hrest

/-- What is in memory depends on the bytes there and on no others. -/
theorem Holds.congr {m' : ByteMem} (h : m.Holds a l)
    (heq : ∀ x : Word, (x - a).toNat < l.length → m' x = m x) (hl : l.length ≤ 2 ^ 64) :
    m'.Holds a l := by
  induction l generalizing a with
  | nil => exact holds_nil
  | cons b l ih =>
    rw [List.length_cons] at heq hl
    obtain ⟨hb, hrest⟩ := holds_cons.mp h
    refine holds_cons.mpr ⟨(heq a (by bv_omega)).trans hb, ih hrest (fun x hx ↦ heq x ?_) ?_⟩
    · bv_omega
    · omega

/-! ## Stores -/

/-- Memory with bytes stored from `a` up. -/
def writeBytes (m : ByteMem) (a : Word) (l : List (BitVec 8)) : ByteMem :=
  fun x ↦ l.getD (x - a).toNat (m x)

/-- No byte is both among the `n` from `a` up and among the `k` from `b` up. -/
def Apart (a : Word) (n : ℕ) (b : Word) (k : ℕ) : Prop :=
  ∀ x : Word, (x - a).toNat < n → ¬(x - b).toNat < k

theorem Apart.symm {b : Word} {k : ℕ} (h : Apart a n b k) : Apart b k a n :=
  fun x hx hx' ↦ h x hx' hx

theorem writeBytes_of_le {x : Word} (h : l.length ≤ (x - a).toNat) :
    m.writeBytes a l x = m x := by
  rw [writeBytes, List.getD_eq_getElem?_getD, List.getElem?_eq_none h, Option.getD_none]

theorem holds_writeBytes (m : ByteMem) (a : Word) (h : l.length ≤ 2 ^ 64) :
    (m.writeBytes a l).Holds a l := by
  induction l generalizing m a with
  | nil => exact holds_nil
  | cons b l ih =>
    rw [List.length_cons] at h
    refine holds_cons.mpr ⟨?_, ?_⟩
    · rw [writeBytes, BitVec.sub_self]
      rfl
    · refine (ih m (a + 1) (by omega)).congr (fun x hx ↦ ?_) (by omega)
      obtain ⟨k, hk⟩ : ∃ k, (x - a).toNat = k + 1 ∧ (x - (a + 1)).toNat = k :=
        ⟨(x - (a + 1)).toNat, by bv_omega, rfl⟩
      rw [writeBytes, writeBytes, hk.1, hk.2, List.getD_cons_succ]

theorem Holds.writeBytes {b : Word} (h : m.Holds a l) (hl : l.length ≤ 2 ^ 64)
    (hapart : Apart a l.length b l'.length) : (m.writeBytes b l').Holds a l :=
  h.congr (fun x hx ↦ writeBytes_of_le (not_lt.mp (hapart x hx))) hl

/-! ## Reading back -/

/-- A number is read back as far as it was wide enough. -/
theorem Holds.num_eq {x : ℕ} (h : m.Holds a (toLeBytes n x)) : m.num n a = x % (2 ^ 8) ^ n := by
  rw [Holds, length_toLeBytes] at h
  rw [num, h, fromLeBytes_toLeBytes]

theorem Holds.byte {b : BitVec 8} (h : m.Holds a (toLeBytes 1 b.toNat)) : m a = b := by
  have hb : m a = BitVec.ofNat 8 b.toNat := (holds_cons.mp h).1
  rwa [BitVec.ofNat_toNat, BitVec.setWidth_eq] at hb

theorem Holds.read_eq {w : Word} (h : m.Holds a (toLeBytes 8 w.toNat)) : m.read a = w := by
  have hbyte : ∀ k, BitVec.ofNat 8 (w.toNat / 2 ^ k) = w.extractLsb' k 8 := fun k ↦ by
    rw [BitVec.extractLsb', Nat.shiftRight_eq_div_pow]
  simp only [toLeBytes, holds_cons, Nat.div_div_eq_div_mul, ← pow_add, Nat.reduceAdd, hbyte,
    BitVec.add_assoc, BitVec.reduceAdd] at h
  obtain ⟨h0, h1, h2, h3, h4, h5, h6, h7, -⟩ := h
  have hfirst : m (a + 0) = w.extractLsb' 0 8 := by
    have hzero : a + 0 = a := BitVec.add_zero a
    simpa only [hzero] using h0.trans (hbyte 0 ▸ by rw [pow_zero, Nat.div_one])
  have hword : m.read a = w.extractLsb' 56 8 ++ w.extractLsb' 48 8 ++ w.extractLsb' 40 8
      ++ w.extractLsb' 32 8 ++ w.extractLsb' 24 8 ++ w.extractLsb' 16 8 ++ w.extractLsb' 8 8
      ++ w.extractLsb' 0 8 := by
    rw [← h7, ← h6, ← h5, ← h4, ← h3, ← h2, ← h1, ← hfirst]
    rfl
  rw [hword]
  iterate 7 rw [BitVec.extractLsb'_append_extractLsb'_eq_extractLsb' (by rfl)]
  exact BitVec.extractLsb'_eq_self

end ByteMem

end Zeroxos
