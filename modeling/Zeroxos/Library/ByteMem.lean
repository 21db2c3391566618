import Zeroxos.Library.Span
import Mathlib.Tactic.Common

/-!
# Byte memory with 64-bit words

Memory is a byte at every 64-bit address. A word is read and written at any address, aligned or
not, little end first; an access that runs over the end of the address space continues at address
zero. What a write leaves alone is said with spans: two memories *agree* on a span when they hold
the same bytes there, and a word read inside a span is the same in both.
-/

namespace Zeroxos

/-- A 64-bit word. -/
abbrev Word : Type := BitVec 64

/-- A byte at every address. -/
def ByteMem : Type := Word → BitVec 8

/-- The bytes of a word that starts at `a`. -/
def wordSpan (a : Word) : Span := ⟨a.toNat, 8⟩

namespace ByteMem

variable {m m' m'' : ByteMem} {a b v x : Word} {S : Span}

/-- The word at `a`. -/
def read (m : ByteMem) (a : Word) : Word :=
  m (a + 7) ++ m (a + 6) ++ m (a + 5) ++ m (a + 4) ++ m (a + 3) ++ m (a + 2) ++ m (a + 1)
    ++ m (a + 0)

/-- The memory with the word `v` stored at `a`. -/
def write (m : ByteMem) (a v : Word) : ByteMem :=
  fun x ↦ if (x - a).toNat < 8 then v.extractLsb' (8 * (x - a).toNat) 8 else m x

/-- The memories hold the same bytes on the span. -/
def AgreeOn (m m' : ByteMem) (S : Span) : Prop := ∀ x : Word, x.toNat ∈ S.cells → m x = m' x

namespace AgreeOn

theorem refl (m : ByteMem) (S : Span) : AgreeOn m m S := fun _ _ ↦ rfl

theorem trans (h : AgreeOn m m' S) (h' : AgreeOn m' m'' S) : AgreeOn m m'' S :=
  fun x hx ↦ (h x hx).trans (h' x hx)

theorem read_eq (h : AgreeOn m m' S) (ha : (wordSpan a).Within S)
    (hS : S.base + S.len ≤ 2 ^ 64) : m.read a = m'.read a := by
  have hbyte : ∀ k : Word, k.toNat < 8 → m (a + k) = m' (a + k) := by
    intro k hk
    apply h
    have hlow : S.base ≤ a.toNat := ha.1
    have hhigh : a.toNat + 8 ≤ S.base + S.len := ha.2
    have hadd : (a + k).toNat = a.toNat + k.toNat := BitVec.toNat_add_of_lt (by omega)
    rw [Span.mem_cells, hadd]
    omega
  rw [read, read, hbyte 7 (by decide), hbyte 6 (by decide), hbyte 5 (by decide),
    hbyte 4 (by decide), hbyte 3 (by decide), hbyte 2 (by decide), hbyte 1 (by decide),
    hbyte 0 (by decide)]

end AgreeOn

private theorem write_add (k : Word) (hk : k.toNat < 8) :
    m.write a v (a + k) = v.extractLsb' (8 * k.toNat) 8 := by
  have hoff : a + k - a = k := by bv_omega
  rw [write, hoff, if_pos hk]

@[simp] theorem read_write (m : ByteMem) (a v : Word) : (m.write a v).read a = v := by
  rw [read, write_add 7 (by decide), write_add 6 (by decide), write_add 5 (by decide),
    write_add 4 (by decide), write_add 3 (by decide), write_add 2 (by decide),
    write_add 1 (by decide), write_add 0 (by decide)]
  iterate 7 rw [BitVec.extractLsb'_append_extractLsb'_eq_extractLsb' (by rfl)]
  exact BitVec.extractLsb'_eq_self

theorem write_agreeOn (m : ByteMem) (v : Word) (ha : a.toNat + 8 ≤ 2 ^ 64)
    (h : (wordSpan a).Apart 0 S) : AgreeOn (m.write a v) m S := by
  intro x hx
  rw [Span.mem_cells] at hx
  have hout : ¬(x - a).toNat < 8 := by
    unfold Span.Apart wordSpan at h
    dsimp only at h
    bv_omega
  rw [write, if_neg hout]

theorem read_write_of_apart (ha : a.toNat + 8 ≤ 2 ^ 64) (hb : b.toNat + 8 ≤ 2 ^ 64)
    (h : (wordSpan a).Apart 0 (wordSpan b)) : (m.write a v).read b = m.read b :=
  (write_agreeOn m v ha h).read_eq ⟨le_refl _, le_refl _⟩ hb

end ByteMem

end Zeroxos
