import Mathlib.Tactic.Common

/-!
# Transition systems

A component that is a library is called: a caller holds a state and calls operations on it, in any
order its contract allows. A `TransitionSystem` is that situation, with the contract folded into the
step relation, and the one induction every invariant needs is packaged here once.

## Calls

The label of a step is the call that was made. Keeping it in the relation is what lets two systems
that differ only in their contracts share their step lemmas: `Reachable.mono` moves a reachable
state from the stricter system to the more permissive one. A `Run` keeps the calls, with the states
they were made in, for what depends on how a state was reached.

## Machines

Most components are deterministic: a contract and a function that executes one call. A `Machine` is
such a pair, and `Machine.run` executes a list of calls, so that a concrete run can be evaluated
and is known to end in a reachable state.
-/

namespace Zeroxos

/-- A labelled transition system: where a run may begin, and what one call may do. -/
structure TransitionSystem (σ ε : Type*) where
  /-- The states a run may begin in. -/
  init : σ → Prop
  /-- `step s e s'`: the call `e` is allowed in `s` and leaves `s'`. -/
  step : σ → ε → σ → Prop

namespace TransitionSystem

variable {σ ε : Type*}

/-- The states some finite run ends in. -/
inductive Reachable (M : TransitionSystem σ ε) : σ → Prop
  | init {s : σ} : M.init s → Reachable M s
  | step {s s' : σ} {e : ε} : Reachable M s → M.step s e s' → Reachable M s'

variable {M : TransitionSystem σ ε}

/-- **Invariant induction.** What holds at the start and survives every step from a reachable
state holds in every reachable state. -/
theorem Reachable.invariant {P : σ → Prop} {s : σ} (h : M.Reachable s)
    (hinit : ∀ s, M.init s → P s)
    (hstep : ∀ s e s', M.Reachable s → P s → M.step s e s' → P s') : P s := by
  induction h with
  | init h => exact hinit _ h
  | step hr hs ih => exact hstep _ _ _ hr ih hs

theorem Reachable.mono {M' : TransitionSystem σ ε} {s : σ} (h : M.Reachable s)
    (hinit : ∀ s, M.init s → M'.init s) (hstep : ∀ s e s', M.step s e s' → M'.step s e s') :
    M'.Reachable s := by
  induction h with
  | init h => exact .init (hinit _ h)
  | step _ hs ih => exact .step ih (hstep _ _ _ hs)

/-- A run from a given state, with the calls it makes and the states it makes them in. -/
inductive Run (M : TransitionSystem σ ε) (s₀ : σ) : List (σ × ε) → σ → Prop
  | nil : Run M s₀ [] s₀
  | snoc {l : List (σ × ε)} {s s' : σ} {e : ε} :
      Run M s₀ l s → M.step s e s' → Run M s₀ (l ++ [(s, e)]) s'

/-- **Run induction**, with what is known of the calls at hand: what holds at the start and survives
every call for which `Q` holds is there at the end of a run in which `Q` held throughout. -/
theorem Run.invariant {P : σ → Prop} {Q : σ → ε → Prop} {s₀ s : σ} {l : List (σ × ε)}
    (h : M.Run s₀ l s) (hQ : ∀ p ∈ l, Q p.1 p.2) (hinit : P s₀)
    (hstep : ∀ s e s', P s → Q s e → M.step s e s' → P s') : P s := by
  induction h with
  | nil => exact hinit
  | snoc hr hs ih =>
    refine hstep _ _ _ (ih fun p hp ↦ hQ p (List.mem_append_left _ hp)) ?_ hs
    exact hQ _ (List.mem_append_right _ List.mem_cons_self)

theorem Reachable.run {s₀ s : σ} {l : List (σ × ε)} (hs : M.Reachable s₀) (h : M.Run s₀ l s) :
    M.Reachable s := by
  induction h with
  | nil => exact hs
  | snoc _ hs ih => exact .step ih hs

theorem Run.reachable {s₀ s : σ} {l : List (σ × ε)} (h : M.Run s₀ l s) (hinit : M.init s₀) :
    M.Reachable s :=
  (Reachable.init hinit).run h

theorem Run.cons {s s' t : σ} {e : ε} {l : List (σ × ε)} (hs : M.step s e s')
    (h : M.Run s' l t) : M.Run s ((s, e) :: l) t := by
  induction h with
  | nil => exact .snoc .nil hs
  | snoc _ hs' ih => exact .snoc ih hs'

end TransitionSystem

/-- A deterministic component: where it may start, the contract of a call, and its effect. -/
structure Machine (σ ε : Type*) where
  /-- The states a run may begin in. -/
  init : σ → Prop
  /-- What a caller has to see to before making the call. -/
  Legal : σ → ε → Prop
  /-- The state after the call, `none` when the call does not return. -/
  next : σ → ε → Option σ

namespace Machine

variable {σ ε : Type*} (M : Machine σ ε)

/-- The runs in which every call is legal and returns. -/
def system : TransitionSystem σ ε where
  init := M.init
  step s e s' := M.Legal s e ∧ M.next s e = some s'

section Run

variable [∀ s e, Decidable (M.Legal s e)]

/-- Make the calls in order, as long as each is legal and returns. -/
def run : List ε → σ → Option σ
  | [], s => some s
  | e :: l, s => if M.Legal s e then (M.next s e).bind (run l) else none

variable {M} {e : ε} {s s' : σ} {l : List ε}

theorem run_cons (hlegal : M.Legal s e) (hnext : M.next s e = some s') (l : List ε) :
    M.run (e :: l) s = M.run l s' := by
  rw [run, if_pos hlegal, hnext, Option.bind_some]

theorem exists_of_run_cons (h : M.run (e :: l) s = some s') :
    ∃ t, M.Legal s e ∧ M.next s e = some t ∧ M.run l t = some s' := by
  rw [run] at h
  split_ifs at h with hlegal
  obtain ⟨t, hnext, hrun⟩ := Option.bind_eq_some_iff.mp h
  exact ⟨t, hlegal, hnext, hrun⟩

theorem run_append {t : σ} (l' : List ε) (h : M.run l s = some t) :
    M.run (l ++ l') s = M.run l' t := by
  induction l generalizing s with
  | nil =>
    cases h
    rfl
  | cons e l ih =>
    obtain ⟨u, hlegal, hnext, hrun⟩ := exists_of_run_cons h
    rw [List.cons_append, run_cons hlegal hnext]
    exact ih hrun

theorem exists_run (h : M.run l s = some s') :
    ∃ p, M.system.Run s p s' ∧ p.map Prod.snd = l := by
  induction l generalizing s with
  | nil =>
    cases h
    exact ⟨[], .nil, rfl⟩
  | cons e l ih =>
    obtain ⟨t, hlegal, hnext, hrun⟩ := exists_of_run_cons h
    obtain ⟨p, hp, hcalls⟩ := ih hrun
    exact ⟨(s, e) :: p, .cons ⟨hlegal, hnext⟩ hp, by rw [List.map_cons, hcalls]⟩

theorem reachable_run (hs : M.system.Reachable s) (h : M.run l s = some s') :
    M.system.Reachable s' := by
  induction l generalizing s with
  | nil =>
    cases h
    exact hs
  | cons e l ih =>
    obtain ⟨t, hlegal, hnext, hrun⟩ := exists_of_run_cons h
    exact ih (.step hs ⟨hlegal, hnext⟩) hrun

end Run

end Machine

end Zeroxos
