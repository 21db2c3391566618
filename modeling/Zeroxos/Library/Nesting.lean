import Mathlib.Data.List.Basic
import Mathlib.Data.List.Infix
import Mathlib.Data.Nat.PSub
import Mathlib.Tactic.Common

/-!
# Nesting

Among the letters of a word one opens and one closes. `nesting` is the depth that a word leads to,
where nothing can be closed at depth 0, and `Nests` is the relation between the depth before a word
and the depth behind it. It has rules for putting words together, and in the end it says what is
meant by balance: no prefix closes more than was opened, and as much is closed as opened.
-/

namespace Zeroxos

variable {α : Type} [DecidableEq α]

/-- The depth behind a letter. -/
def nestStep (op cl a : α) (k : ℕ) : Option ℕ :=
  if a = op then some (k + 1) else if a = cl then k.ppred else some k

/-- The depth behind a word. -/
def nesting (op cl : α) : List α → ℕ → Option ℕ
  | [], k => some k
  | a :: l, k => (nestStep op cl a k).bind (nesting op cl l)

/-- A word leads from depth `k` to depth `k'`. -/
def Nests (op cl : α) (k : ℕ) (l : List α) (k' : ℕ) : Prop := nesting op cl l k = some k'

instance (op cl : α) (k : ℕ) (l : List α) (k' : ℕ) : Decidable (Nests op cl k l k') :=
  inferInstanceAs (Decidable (_ = _))

theorem nestStep_add {op cl a : α} {k k' : ℕ} (h : nestStep op cl a k = some k') (m : ℕ) :
    nestStep op cl a (k + m) = some (k' + m) := by
  rw [nestStep] at h ⊢
  split_ifs at h ⊢ with hop hcl
  · obtain rfl := Option.some.inj h
    exact congrArg some (Nat.add_right_comm k m 1)
  · obtain rfl := Nat.ppred_eq_some.mp h
    exact Nat.ppred_eq_some.mpr (Nat.succ_add k' m).symm
  · obtain rfl := Option.some.inj h
    rfl

theorem nestStep_count {op cl a : α} {k k' : ℕ} (hne : op ≠ cl)
    (h : nestStep op cl a k = some k') : k + [a].count op = k' + [a].count cl := by
  have hnone : ∀ {b c : α}, b ≠ c → [b].count c = 0 := fun hbc ↦
    List.count_eq_zero.mpr fun hmem ↦ hbc (List.mem_singleton.mp hmem).symm
  rw [nestStep] at h
  split_ifs at h with hop hcl
  · obtain rfl := Option.some.inj h
    rw [hop, List.count_singleton_self, hnone hne]
  · obtain rfl := Nat.ppred_eq_some.mp h
    rw [hcl, List.count_singleton_self, hnone hne.symm]
  · obtain rfl := Option.some.inj h
    rw [hnone hop, hnone hcl]

namespace Nests

variable {op cl a : α} {k k' k'' : ℕ} {l l' : List α}

theorem nil (k : ℕ) : Nests op cl k [] k := rfl

theorem cons_iff :
    Nests op cl k (a :: l) k'' ↔ ∃ k', nestStep op cl a k = some k' ∧ Nests op cl k' l k'' :=
  Option.bind_eq_some_iff

theorem append (h : Nests op cl k l k') (h' : Nests op cl k' l' k'') :
    Nests op cl k (l ++ l') k'' := by
  induction l generalizing k with
  | nil =>
    obtain rfl := Option.some.inj h
    exact h'
  | cons a l ih =>
    obtain ⟨k₁, hstep, hrest⟩ := cons_iff.mp h
    exact cons_iff.mpr ⟨k₁, hstep, ih hrest⟩

theorem lift (h : Nests op cl k l k') (m : ℕ) : Nests op cl (k + m) l (k' + m) := by
  induction l generalizing k with
  | nil =>
    obtain rfl := Option.some.inj h
    exact nil _
  | cons a l ih =>
    obtain ⟨k₁, hstep, hrest⟩ := cons_iff.mp h
    exact cons_iff.mpr ⟨k₁ + m, nestStep_add hstep m, ih hrest⟩

theorem of_notMem (hop : op ∉ l) (hcl : cl ∉ l) (k : ℕ) : Nests op cl k l k := by
  induction l with
  | nil => exact nil k
  | cons a l ih =>
    rw [List.mem_cons, not_or] at hop hcl
    have hstep : nestStep op cl a k = some k := by
      rw [nestStep, if_neg (Ne.symm hop.1), if_neg (Ne.symm hcl.1)]
    exact cons_iff.mpr ⟨k, hstep, ih hop.2 hcl.2⟩

/-- **The totals.** -/
theorem count_eq (hne : op ≠ cl) (h : Nests op cl k l k') : k + l.count op = k' + l.count cl := by
  induction l generalizing k with
  | nil =>
    obtain rfl := Option.some.inj h
    rfl
  | cons a l ih =>
    obtain ⟨k₁, hstep, hrest⟩ := cons_iff.mp h
    have hone := nestStep_count hne hstep
    have hall := ih hrest
    rw [← List.singleton_append, List.count_append, List.count_append]
    omega

theorem exists_prefix {p : List α} (h : Nests op cl k l k') (hp : p <+: l) :
    ∃ j, Nests op cl k p j := by
  obtain ⟨r, rfl⟩ := hp
  induction p generalizing k with
  | nil => exact ⟨k, nil k⟩
  | cons a p ih =>
    obtain ⟨k₁, hstep, hrest⟩ := cons_iff.mp h
    obtain ⟨j, hj⟩ := ih hrest
    exact ⟨j, cons_iff.mpr ⟨k₁, hstep, hj⟩⟩

/-- **The prefixes.** -/
theorem count_le (hne : op ≠ cl) (h : Nests op cl k l k') {p : List α} (hp : p <+: l) :
    p.count cl ≤ k + p.count op := by
  obtain ⟨j, hj⟩ := h.exists_prefix hp
  exact (count_eq hne hj).symm ▸ Nat.le_add_left _ j

end Nests

end Zeroxos
