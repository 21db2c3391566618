import Zeroxos.Library.Transition

/-!
# Machines side by side

Two components that know nothing of each other share a caller. A call goes to one of them and leaves
the other as it is; what connects them is only that the caller may be asked for more than each of
the components asks, in terms of the states of both. A run of the two is a run of either when the
calls to the other one are left out.
-/

namespace Zeroxos

variable {σ τ ε ν : Type*}

namespace Machine

/-- Two machines side by side, with a contract for the two together. -/
def beside (M : Machine σ ε) (N : Machine τ ν) (guard : σ × τ → ε ⊕ ν → Prop) :
    Machine (σ × τ) (ε ⊕ ν) where
  init s := M.init s.1 ∧ N.init s.2
  Legal s e := guard s e ∧ e.elim (M.Legal s.1) (N.Legal s.2)
  next s
    | .inl e => (M.next s.1 e).map fun t ↦ (t, s.2)
    | .inr e => (N.next s.2 e).map fun t ↦ (s.1, t)

variable {M : Machine σ ε} {N : Machine τ ν} {guard : σ × τ → ε ⊕ ν → Prop} {s s' : σ × τ}

theorem beside_inl {e : ε} : (M.beside N guard).system.step s (.inl e) s' ↔
    guard s (.inl e) ∧ M.system.step s.1 e s'.1 ∧ s'.2 = s.2 := by
  obtain ⟨t, u⟩ := s'
  constructor
  · rintro ⟨⟨hguard, hlegal⟩, hnext⟩
    obtain ⟨t', hcall, heq⟩ := Option.map_eq_some_iff.mp hnext
    obtain ⟨rfl, rfl⟩ := Prod.mk.inj heq
    exact ⟨hguard, ⟨hlegal, hcall⟩, rfl⟩
  · rintro ⟨hguard, ⟨hlegal, hnext⟩, rfl⟩
    exact ⟨⟨hguard, hlegal⟩, Option.map_eq_some_iff.mpr ⟨t, hnext, rfl⟩⟩

theorem beside_inr {e : ν} : (M.beside N guard).system.step s (.inr e) s' ↔
    guard s (.inr e) ∧ N.system.step s.2 e s'.2 ∧ s'.1 = s.1 := by
  obtain ⟨t, u⟩ := s'
  constructor
  · rintro ⟨⟨hguard, hlegal⟩, hnext⟩
    obtain ⟨u', hcall, heq⟩ := Option.map_eq_some_iff.mp hnext
    obtain ⟨rfl, rfl⟩ := Prod.mk.inj heq
    exact ⟨hguard, ⟨hlegal, hcall⟩, rfl⟩
  · rintro ⟨hguard, ⟨hlegal, hnext⟩, rfl⟩
    exact ⟨⟨hguard, hlegal⟩, Option.map_eq_some_iff.mpr ⟨u, hnext, rfl⟩⟩

end Machine

namespace TransitionSystem

open Machine

variable {M : Machine σ ε} {N : Machine τ ν} {guard : σ × τ → ε ⊕ ν → Prop} {s s₀ : σ × τ}

theorem Reachable.fst (h : (M.beside N guard).system.Reachable s) :
    M.system.Reachable s.1 := by
  induction h with
  | init h => exact .init h.1
  | @step s s' e _ hstep ih =>
    cases e with
    | inl e => exact .step ih (beside_inl.mp hstep).2.1
    | inr e =>
      rw [(beside_inr.mp hstep).2.2]
      exact ih

theorem Reachable.snd (h : (M.beside N guard).system.Reachable s) :
    N.system.Reachable s.2 := by
  induction h with
  | init h => exact .init h.2
  | @step s s' e _ hstep ih =>
    cases e with
    | inl e =>
      rw [(beside_inl.mp hstep).2.2]
      exact ih
    | inr e => exact .step ih (beside_inr.mp hstep).2.1

/-- A run of the two is a run of the second, which makes no other calls than those to it. -/
theorem Run.snd {l : List ((σ × τ) × (ε ⊕ ν))} (h : (M.beside N guard).system.Run s₀ l s) :
    ∃ l', N.system.Run s₀.2 l' s.2 ∧
      l'.map Prod.snd = (l.map Prod.snd).filterMap Sum.getRight? := by
  induction h with
  | nil => exact ⟨[], .nil, rfl⟩
  | @snoc l s s' e _ hstep ih =>
    obtain ⟨l', hrun, hcalls⟩ := ih
    rw [List.map_append, List.filterMap_append, ← hcalls]
    cases e with
    | inl e =>
      rw [(beside_inl.mp hstep).2.2]
      exact ⟨l', hrun, by simp⟩
    | inr e => exact ⟨l' ++ [(s.2, e)], .snoc hrun (beside_inr.mp hstep).2.1, by simp⟩

end TransitionSystem

end Zeroxos
