import Mathlib.Data.List.TakeDrop
import Zeroxos.Fs.Checksum
import Zeroxos.Library.LittleEndian

/-!
# Block compression

A compressed block is a tag for the algorithm, the length of the data in four bytes, and the data.

## The compressor

The length is cast to `u32` on its way in, so that of a longer block only the length modulo `2 ^ 32`
is kept, and as many bytes are read back (`decompress_compress_iff`).

## The decompressor

It looks at nothing but the length: a block that is too short for it is refused. The tag is read and
forgotten, and what stands behind the payload is never looked at, so blocks are taken that the
compressor does not write (`accepts_only_format_iff`).
-/

namespace Zeroxos

/-- The algorithm of a block. -/
inductive Algorithm
  | none
  | lz4
  | zstd
deriving DecidableEq, Repr

/-- The tag `compress` pushes for an algorithm. -/
def Algorithm.tag : Algorithm → BitVec 8
  | .none => 0
  | .lz4 => 1
  | .zstd => 2

def compress (src : Bytes) (algo : Algorithm) : Bytes :=
  -- `src.len() as u32`
  [algo.tag] ++ toLeBytes 4 (src.length % 2 ^ 32) ++ src

def decompress (src : Bytes) : Option Bytes :=
  if h : src.length < 5 then none
  else
    let len := fromLeBytes [src[1], src[2], src[3], src[4]]
    if src.length < 5 + len then none else some ((src.drop 5).take len)

/-! ## What the compressor reads back -/

theorem decompress_cons (tag a b c d : BitVec 8) (src : Bytes) :
    decompress (tag :: a :: b :: c :: d :: src) =
      if src.length < fromLeBytes [a, b, c, d] then none
      else some (src.take (fromLeBytes [a, b, c, d])) := by
  have hlen : (tag :: a :: b :: c :: d :: src).length = 5 + src.length := by
    simp only [List.length_cons]
    ring
  rw [decompress, dif_neg (by rw [hlen]; exact not_lt.mpr (Nat.le_add_right 5 _))]
  simp only [hlen, Nat.add_lt_add_iff_left]
  rfl

/-- **A round trip** keeps as many bytes as the length field says. -/
theorem decompress_compress (src : Bytes) (algo : Algorithm) :
    decompress (compress src algo) = some (src.take (src.length % 2 ^ 32)) := by
  have hread : fromLeBytes (toLeBytes 4 (src.length % 2 ^ 32)) = src.length % 2 ^ 32 := by
    rw [fromLeBytes_toLeBytes]
    exact Nat.mod_mod _ _
  obtain ⟨a, b, c, d, hbytes⟩ : ∃ a b c d, toLeBytes 4 (src.length % 2 ^ 32) = [a, b, c, d] :=
    ⟨_, _, _, _, rfl⟩
  have hblock : compress src algo = algo.tag :: a :: b :: c :: d :: src := by
    rw [compress, hbytes]
    rfl
  rw [hblock, decompress_cons, ← hbytes, hread, if_neg (not_lt.mpr (Nat.mod_le _ _))]

/-- **Compression is lossless** exactly for the blocks whose length fits its field. -/
theorem decompress_compress_iff (src : Bytes) (algo : Algorithm) :
    decompress (compress src algo) = some src ↔ src.length < 2 ^ 32 := by
  rw [decompress_compress, Option.some_inj, List.take_eq_self_iff]
  constructor
  · intro h
    exact lt_of_le_of_lt h (Nat.mod_lt _ (by norm_num))
  · intro h
    exact (Nat.mod_eq_of_lt h).ge

/-- **A block is lost**: of `2 ^ 32` bytes none are read back. -/
theorem compression_lossy : ¬∀ src algo, decompress (compress src algo) = some src := by
  intro h
  have hread := h (List.replicate (2 ^ 32) 0) .lz4
  rw [decompress_compress, Option.some_inj, List.length_replicate, Nat.mod_self,
    List.take_zero] at hread
  have hlen := congrArg List.length hread
  rw [List.length_nil, List.length_replicate] at hlen
  exact absurd hlen (by norm_num)

/-! ## What the decompressor accepts -/

/-- The length field of a block: the four bytes behind the tag. -/
def lengthField (y : Bytes) : ℕ := fromLeBytes ((y.drop 1).take 4)

/-- The block does not have the bytes that its length field declares, or not even a header. -/
def Truncated (y : Bytes) : Prop := y.length < 5 + lengthField y

/-- The block begins with the tag of no algorithm. -/
def UnknownTag (y : Bytes) : Prop := ∀ a : Algorithm, y.head? ≠ some a.tag

/-- The block goes on behind the bytes that its length field declares. -/
def Overlong (y : Bytes) : Prop := 5 + lengthField y < y.length

/-- A block of the compressor's format and no other is accepted: what it is read as is compressed
to it, and a malformed block is refused. -/
def AcceptsOnlyFormat (y : Bytes) : Prop :=
  (∀ x, decompress y = some x → ∃ a, compress x a = y)
    ∧ (UnknownTag y ∨ Truncated y ∨ Overlong y → decompress y = none)

theorem exists_header {y : Bytes} (h : 5 ≤ y.length) :
    ∃ tag a b c d src, y = tag :: a :: b :: c :: d :: src := by
  obtain ⟨tag, y, rfl⟩ := List.exists_cons_of_length_pos (Nat.zero_lt_of_lt h)
  have h := Nat.le_of_succ_le_succ h
  obtain ⟨a, y, rfl⟩ := List.exists_cons_of_length_pos (Nat.zero_lt_of_lt h)
  have h := Nat.le_of_succ_le_succ h
  obtain ⟨b, y, rfl⟩ := List.exists_cons_of_length_pos (Nat.zero_lt_of_lt h)
  have h := Nat.le_of_succ_le_succ h
  obtain ⟨c, y, rfl⟩ := List.exists_cons_of_length_pos (Nat.zero_lt_of_lt h)
  have h := Nat.le_of_succ_le_succ h
  obtain ⟨d, src, rfl⟩ := List.exists_cons_of_length_pos (Nat.zero_lt_of_lt h)
  exact ⟨tag, a, b, c, d, src, rfl⟩

theorem decompress_of_truncated {y : Bytes} (h : Truncated y) : decompress y = none := by
  by_cases hlen : y.length < 5
  · rw [decompress, dif_pos hlen]
  · obtain ⟨tag, a, b, c, d, src, rfl⟩ := exists_header (not_lt.mp hlen)
    rw [decompress_cons, if_pos]
    change src.length + 1 + 1 + 1 + 1 + 1 < 5 + fromLeBytes [a, b, c, d] at h
    omega

theorem exists_of_not_truncated {y : Bytes} (h : ¬Truncated y) :
    ∃ tag len src, y = tag :: len ++ src ∧ len.length = 4 ∧ lengthField y = fromLeBytes len
      ∧ fromLeBytes len ≤ src.length ∧ decompress y = some (src.take (fromLeBytes len)) := by
  rw [Truncated, not_lt] at h
  obtain ⟨tag, a, b, c, d, src, rfl⟩ := exists_header ((Nat.le_add_right 5 _).trans h)
  have hle : fromLeBytes [a, b, c, d] ≤ src.length := by
    change 5 + fromLeBytes [a, b, c, d] ≤ src.length + 1 + 1 + 1 + 1 + 1 at h
    omega
  refine ⟨tag, [a, b, c, d], src, rfl, rfl, rfl, hle, ?_⟩
  rw [decompress_cons, if_neg (not_lt.mpr hle)]

theorem compress_take {len src : Bytes} (hlen : len.length = 4)
    (hle : fromLeBytes len ≤ src.length) (a : Algorithm) :
    compress (src.take (fromLeBytes len)) a = a.tag :: len ++ src.take (fromLeBytes len) := by
  have hlt := fromLeBytes_lt len
  rw [hlen] at hlt
  have hbytes := toLeBytes_fromLeBytes len
  rw [hlen] at hbytes
  rw [compress, List.length_take, min_eq_left hle, Nat.mod_eq_of_lt (by norm_num at hlt ⊢; omega),
    hbytes]
  rfl

/-- **The decompressor accepts the compressor's format and no other** exactly on the blocks that are
too short, and are refused, and on those with a known tag and nothing behind the payload. -/
theorem accepts_only_format_iff (y : Bytes) :
    AcceptsOnlyFormat y ↔ Truncated y ∨ ¬UnknownTag y ∧ ¬Overlong y := by
  by_cases ht : Truncated y
  · have hnone := decompress_of_truncated ht
    refine iff_of_true ⟨fun x hx ↦ ?_, fun _ ↦ hnone⟩ (Or.inl ht)
    rw [hnone] at hx
    exact absurd hx (Option.some_ne_none x).symm
  · obtain ⟨tag, len, src, hy, hlen, hfield, hle, hread⟩ := exists_of_not_truncated ht
    constructor
    · rintro ⟨-, hmalformed⟩
      -- the block is accepted, so it is not malformed
      have hgood : ¬(UnknownTag y ∨ Truncated y ∨ Overlong y) := by
        intro hbad
        rw [hmalformed hbad] at hread
        exact Option.some_ne_none _ hread.symm
      exact Or.inr ⟨fun h ↦ hgood (Or.inl h), fun h ↦ hgood (Or.inr (Or.inr h))⟩
    · rintro (h | ⟨htag, hover⟩)
      · exact absurd h ht
      refine ⟨fun x hx ↦ ?_, ?_⟩
      · obtain ⟨a, ha⟩ : ∃ a : Algorithm, y.head? = some a.tag := by
          rw [UnknownTag] at htag
          push Not at htag
          exact htag
        refine ⟨a, ?_⟩
        -- nothing is left behind the payload
        have hall : src.take (fromLeBytes len) = src := by
          rw [Overlong, hfield, hy] at hover
          apply List.take_of_length_le
          simp only [List.length_cons, List.length_append, hlen] at hover
          omega
        rw [hread, Option.some_inj] at hx
        rw [hy] at ha
        rw [← hx, compress_take hlen hle, hall, hy, Option.some_inj.mp ha]
      · rintro (h | h | h)
        · exact absurd h htag
        · exact absurd h ht
        · exact absurd h hover

/-- **An unknown tag is accepted**: the block of tag 9 and length 0 is read as no data, and no
algorithm writes it. -/
theorem unknown_tag_accepted : ¬∀ y, AcceptsOnlyFormat y := by
  intro h
  have hread : decompress [9, 0, 0, 0, 0] = some [] := rfl
  obtain ⟨a, ha⟩ := (h [9, 0, 0, 0, 0]).1 [] hread
  cases a <;> exact absurd ha (by decide)

end Zeroxos
