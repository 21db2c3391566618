import Mathlib.Data.List.Basic
import Mathlib.Tactic.Common

/-!
# Linked lists in a store

`Seg next s l t`: following `next` from `s` visits the nodes of `l` in order and is then at `t`. A
`Chain` is a segment that ends in `none`, so a chain is finite by definition, and when its nodes are
distinct its pointers have no cycle.

A segment reads `next` at its own nodes only, so a change elsewhere leaves it alone (`Seg.congr`).
The two edits of a free list are `Chain.cons`, which puts a node in front, and `Chain.unlink`, which
takes one out by redirecting its predecessor.
-/

namespace Zeroxos

variable {α : Type*} {next next' : α → Option α} {s t u : Option α} {a p : α} {l l' pre : List α}

/-- Following `next` from `s` visits exactly `l` and is then at `t`. -/
def Seg (next : α → Option α) : Option α → List α → Option α → Prop
  | s, [], t => s = t
  | s, a :: l, t => s = some a ∧ Seg next (next a) l t

/-- Following `next` from `s` visits exactly `l` and ends. -/
def Chain (next : α → Option α) (s : Option α) (l : List α) : Prop := Seg next s l none

/-- **Frame.** Only the pointers of the nodes matter. -/
theorem Seg.congr (h : Seg next s l t) (heq : ∀ a ∈ l, next' a = next a) : Seg next' s l t := by
  induction l generalizing s with
  | nil => exact h
  | cons a l ih =>
    refine ⟨h.1, ?_⟩
    rw [heq a List.mem_cons_self]
    exact ih h.2 fun b hb ↦ heq b (List.mem_cons_of_mem a hb)

theorem seg_append : Seg next s (pre ++ l) t ↔ ∃ u, Seg next s pre u ∧ Seg next u l t := by
  induction pre generalizing s with
  | nil => exact ⟨fun h ↦ ⟨s, rfl, h⟩, fun ⟨_, hu, h⟩ ↦ hu ▸ h⟩
  | cons a pre ih =>
    rw [List.cons_append]
    constructor
    · rintro ⟨hs, h⟩
      obtain ⟨u, hpre, hl⟩ := ih.mp h
      exact ⟨u, ⟨hs, hpre⟩, hl⟩
    · rintro ⟨u, ⟨hs, hpre⟩, hl⟩
      exact ⟨hs, ih.mpr ⟨u, hpre, hl⟩⟩

namespace Chain

theorem nil_iff : Chain next s [] ↔ s = none := Iff.rfl

theorem cons_iff : Chain next s (a :: l) ↔ s = some a ∧ Chain next (next a) l := Iff.rfl

theorem congr (h : Chain next s l) (heq : ∀ a ∈ l, next' a = next a) : Chain next' s l :=
  Seg.congr h heq

/-- The nodes are determined by the pointers. -/
theorem unique (h : Chain next s l) (h' : Chain next s l') : l = l' := by
  induction l generalizing s l' with
  | nil =>
    cases l' with
    | nil => rfl
    | cons b l' => exact absurd (h.symm.trans h'.1) (Option.some_ne_none b).symm
  | cons a l ih =>
    cases l' with
    | nil => exact absurd (h'.symm.trans h.1) (Option.some_ne_none a).symm
    | cons b l' =>
      obtain rfl : a = b := Option.some_inj.mp (h.1.symm.trans h'.1)
      rw [ih h.2 h'.2]

theorem cons (h : Chain next s l) (ha : next' a = s) (heq : ∀ b ∈ l, next' b = next b) :
    Chain next' (some a) (a :: l) :=
  cons_iff.mpr ⟨rfl, ha ▸ h.congr heq⟩

/-- A node taken out, by redirecting the node before it. -/
theorem unlink (h : Chain next s (pre ++ p :: a :: l)) (hp : next' p = next a)
    (heq : ∀ b ∈ pre ++ l, next' b = next b) : Chain next' s (pre ++ p :: l) := by
  obtain ⟨u, hpre, hu, ha, hl⟩ := seg_append.mp h
  refine seg_append.mpr ⟨u, hpre.congr fun b hb ↦ heq b (List.mem_append_left l hb), hu, ?_⟩
  rw [hp]
  exact hl.congr fun b hb ↦ heq b (List.mem_append_right pre hb)

end Chain

end Zeroxos
