import Mathlib.Data.List.Forall2
import Zeroxos.Library.Cursor

/-!
# Two parsers side by side

`Parallel` says of two parsers that they do the same on vectors whose tokens are related one by one:
the cursors move alike, and what they return, or the errors they report, are related in turn. With
the tokens of one vector related to those of another that differ from them in something no parser
should see, it says of a parser and itself that it does not see it. Every way to put parsers
together keeps the relation.
-/

namespace Zeroxos

variable {τ ε α β : Type}

/-- Results that are related, or the same way to have none. -/
inductive Outcome.Alike (E : ε → ε → Prop) (S : α → α → Prop) : Outcome ε α → Outcome ε α → Prop
  | ok {a a' : α} (h : S a a') : Alike E S (.ok a) (.ok a')
  | err {e e' : ε} (h : E e e') : Alike E S (.err e) (.err e')
  | panic : Alike E S .panic .panic
  | outOfFuel : Alike E S .outOfFuel .outOfFuel

theorem Outcome.Alike.imp {E : ε → ε → Prop} {S S' : α → α → Prop} {o o' : Outcome ε α}
    (h : o.Alike E S o') (himp : ∀ a a', S a a' → S' a a') : o.Alike E S' o' := by
  cases h with
  | ok h => exact .ok (himp _ _ h)
  | err h => exact .err h
  | panic => exact .panic
  | outOfFuel => exact .outOfFuel

/-- The same place in vectors of related tokens, with the same things done. -/
structure Cursor.Alike (R : τ → τ → Prop) (c c' : Cursor τ) : Prop where
  toks : List.Forall₂ R c.toks c'.toks
  pos_eq : c.pos = c'.pos
  log_eq : c.log = c'.log

/-- **The relation**: from cursors that are alike the parsers end alike, and leave cursors that
are. -/
def Parallel (R : τ → τ → Prop) (E : ε → ε → Prop) (S : α → α → Prop) (p q : Parse τ ε α) : Prop :=
  ∀ c c', c.Alike R c' → (p c).1.Alike E S (q c').1 ∧ (p c).2.Alike R (q c').2

variable {R : τ → τ → Prop} {E : ε → ε → Prop} {S : α → α → Prop} {S' : β → β → Prop}
  {p q : Parse τ ε α} {f g : α → Parse τ ε β} {c c' : Cursor τ}

namespace Cursor.Alike

theorem note (h : c.Alike R c') (e : Event) : (c.note e).Alike R (c'.note e) :=
  ⟨h.toks, h.pos_eq, congrArg (e :: ·) h.log_eq⟩

theorem look (h : c.Alike R c') : (c.note (.look c.pos)).Alike R (c'.note (.look c'.pos)) := by
  rw [h.pos_eq]
  exact h.note _

theorem get (h : c.Alike R c') (i : ℕ) : Option.Rel R c.toks[i]? c'.toks[i]? := by
  have hlength := h.toks.length_eq
  by_cases hi : i < c.toks.length
  · rw [List.getElem?_eq_getElem hi, List.getElem?_eq_getElem (hlength ▸ hi)]
    exact .some (h.toks.get hi (hlength ▸ hi))
  · rw [List.getElem?_eq_none (not_lt.mp hi), List.getElem?_eq_none (hlength ▸ not_lt.mp hi)]
    exact .none

theorem last (h : c.Alike R c') : Option.Rel R c.toks.getLast? c'.toks.getLast? := by
  rw [List.getLast?_eq_getElem?, List.getLast?_eq_getElem?, ← h.toks.length_eq]
  exact h.get _

end Cursor.Alike

namespace Parallel

theorem imp {S' : α → α → Prop} (h : Parallel R E S p q) (himp : ∀ a a', S a a' → S' a a') :
    Parallel R E S' p q := fun c c' hc ↦ ⟨(h c c' hc).1.imp himp, (h c c' hc).2⟩

theorem pure {a a' : α} (h : S a a') :
    Parallel R E S (Pure.pure a : Parse τ ε α) (Pure.pure a') := fun _ _ hc ↦ ⟨.ok h, hc⟩

theorem fail {e e' : ε} (h : E e e') :
    Parallel R E S (Parse.fail e : Parse τ ε α) (Parse.fail e') := fun _ _ hc ↦ ⟨.err h, hc⟩

theorem outOfFuel : Parallel R E S (Parse.outOfFuel : Parse τ ε α) Parse.outOfFuel :=
  fun _ _ hc ↦ ⟨.outOfFuel, hc⟩

theorem current : Parallel R E R (Parse.current : Parse τ ε τ) Parse.current := by
  intro c c' hc
  have hget := hc.get c.pos
  rw [Parse.current, Parse.current, ← hc.pos_eq]
  generalize c.toks[c.pos]? = o, c'.toks[c.pos]? = o' at hget ⊢
  cases hget with
  | none => exact ⟨.panic, hc.note _⟩
  | some h => exact ⟨.ok h, hc.note _⟩

theorem lookahead (off : ℕ) :
    Parallel R E R (Parse.lookahead off : Parse τ ε τ) (Parse.lookahead off) := by
  intro c c' hc
  have hlast := hc.last
  have hget := hc.get (c.pos + off)
  rw [Parse.lookahead, Parse.lookahead, ← hc.pos_eq]
  generalize c.toks.getLast? = last, c'.toks.getLast? = last' at hlast ⊢
  generalize c.toks[c.pos + off]? = o, c'.toks[c.pos + off]? = o' at hget ⊢
  cases hlast with
  | none => exact ⟨.panic, hc.note _⟩
  | some hlast =>
    refine ⟨.ok ?_, hc.note _⟩
    cases hget with
    | none => exact hlast
    | some h => exact h

theorem advance : Parallel R E Eq (Parse.advance : Parse τ ε Unit) Parse.advance := by
  intro c c' hc
  refine ⟨.ok rfl, hc.toks, congrArg (· + 1) hc.pos_eq, ?_⟩
  rw [Parse.advance, Parse.advance, hc.pos_eq]
  exact (hc.note _).log_eq

/-- **One parser after another.** -/
theorem bind (hp : Parallel R E S p q) (hf : ∀ a a', S a a' → Parallel R E S' (f a) (g a')) :
    Parallel R E S' (p >>= f) (q >>= g) := by
  intro c c' hc
  obtain ⟨hout, hd⟩ := hp c c' hc
  rw [Parse.bind_apply, Parse.bind_apply]
  generalize p c = r, q c' = r' at hout hd ⊢
  obtain ⟨o, d⟩ := r
  obtain ⟨o', d'⟩ := r'
  dsimp only at hout hd
  cases hout with
  | ok h => exact hf _ _ h d d' hd
  | err h => exact ⟨.err h, hd⟩
  | panic => exact ⟨.panic, hd⟩
  | outOfFuel => exact ⟨.outOfFuel, hd⟩

/-- When the first returns the same, the second may be told. -/
theorem bind_eq (hp : Parallel R E Eq p q) (hf : ∀ a, Parallel R E S' (f a) (g a)) :
    Parallel R E S' (p >>= f) (q >>= g) :=
  hp.bind fun a _ h ↦ h ▸ hf a

theorem bind_pure {f : α → β} (hp : Parallel R E Eq p q) :
    Parallel R E Eq (p >>= fun a ↦ Pure.pure (f a)) (q >>= fun a ↦ Pure.pure (f a)) :=
  hp.bind_eq fun _ ↦ .pure rfl

theorem ite {p' q' : Parse τ ε α} {b : Prop} [Decidable b] (hp : b → Parallel R E S p p')
    (hq : ¬b → Parallel R E S q q') :
    Parallel R E S (if b then p else q) (if b then p' else q') := by
  split_ifs with h
  · exact hp h
  · exact hq h

theorem attempt (hp : Parallel R E S p q) :
    Parallel R E (Option.Rel S) (Parse.attempt p) (Parse.attempt q) := by
  intro c c' hc
  obtain ⟨hout, hd⟩ := hp c c' hc
  rw [Parse.attempt, Parse.attempt]
  generalize p c = r, q c' = r' at hout hd ⊢
  obtain ⟨o, d⟩ := r
  obtain ⟨o', d'⟩ := r'
  dsimp only at hout hd
  cases hout with
  | ok h => exact ⟨.ok (.some h), hd⟩
  | err _ => exact ⟨.ok .none, hd⟩
  | panic => exact ⟨.panic, hd⟩
  | outOfFuel => exact ⟨.outOfFuel, hd⟩

theorem position : Parallel R E Eq (Parse.position : Parse τ ε ℕ) Parse.position :=
  fun _ _ hc ↦ ⟨.ok hc.pos_eq, hc⟩

theorem completed (start : ℕ) :
    Parallel R E Eq (Parse.completed start : Parse τ ε Unit) (Parse.completed start) := by
  intro c c' hc
  refine ⟨.ok rfl, ?_⟩
  rw [Parse.completed, Parse.completed, hc.pos_eq]
  exact hc.note _

/-- **A loop.** -/
theorem loop {body body' : β → Parse τ ε (Round β)}
    (hbody : ∀ b, Parallel R E Eq (body b) (body' b)) (fuel : ℕ) (b : β) :
    Parallel R E Eq (Parse.loop body fuel b) (Parse.loop body' fuel b) := by
  induction fuel generalizing b with
  | zero => exact .outOfFuel
  | succ fuel ih =>
    refine position.bind_eq fun start ↦ (hbody b).bind_eq fun r ↦ ?_
    cases r with
    | exit b => exact .pure rfl
    | again b => exact (completed start).bind_eq fun _ ↦ ih b
    | last b => exact (completed start).bind_eq fun _ ↦ .pure rfl

theorem whileLoop {cond cond' : Parse τ ε Bool} {body body' : β → Parse τ ε β}
    (hcond : Parallel R E Eq cond cond') (hbody : ∀ b, Parallel R E Eq (body b) (body' b))
    (fuel : ℕ) (b : β) :
    Parallel R E Eq (Parse.whileLoop cond body fuel b) (Parse.whileLoop cond' body' fuel b) := by
  refine loop (fun b ↦ hcond.bind_eq fun more ↦ ?_) fuel b
  exact ite (fun _ ↦ (hbody b).bind_pure) fun _ ↦ .pure rfl

end Parallel

end Zeroxos
