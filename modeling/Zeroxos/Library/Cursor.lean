import Mathlib.Order.Nat
import Mathlib.Tactic.Common

/-!
# Parsing with a cursor

A parser written by hand keeps a vector of tokens and a cursor, an index into it. It looks at the
token under the cursor, moves the cursor on, and goes round loops until some token ends them; the
last token of the vector marks the end of the input and should never be passed. `Parse` is the monad
of such parsers.

## Outcomes

Besides returning or reporting an error a parser may `panic`, which an index outside the vector
does, and a model of it may be `outOfFuel`, which is no behaviour of the parser but says that the
bound given to a loop or a recursion was too small. What the parser did is noted in a log that
nothing reads.

## The contract

`Consumes` is the contract that parsers are put together by. It says that within a number of tokens
a parser neither panics nor runs out of fuel, keeps to the rules for the end of the input, and has
moved the cursor by a minimal amount when it succeeds. Each construct has one rule for it, and a
loop needs only that every round moves the cursor.
-/

namespace Zeroxos

/-- What a parser did, and where the cursor was. -/
inductive Event
  /-- It looked at the token under the cursor, or at one further on. -/
  | look (pos : ℕ)
  /-- It moved past the token under the cursor. -/
  | pass (pos : ℕ)
  /-- It completed a round of a loop, which had begun at `start`. -/
  | round (start pos : ℕ)
deriving DecidableEq, Repr

/-- How a parser ends. -/
inductive Outcome (ε α : Type)
  | ok (a : α)
  | err (e : ε)
  /-- An index was outside the vector. -/
  | panic
  /-- A bound on a loop or a recursion was too small. -/
  | outOfFuel
deriving DecidableEq, Repr

/-- Where a parser is in its tokens, and what it did to get there. -/
structure Cursor (τ : Type) where
  toks : List τ
  pos : ℕ
  log : List Event
deriving DecidableEq, Repr

/-- A parser. -/
def Parse (τ ε α : Type) : Type := Cursor τ → Outcome ε α × Cursor τ

/-- How a round of a loop ends. -/
inductive Round (β : Type)
  /-- The condition of the loop is false. -/
  | exit (b : β)
  /-- The body was executed. -/
  | again (b : β)
  /-- The body was executed up to a `break`. -/
  | last (b : β)

/-- What a round has made. -/
def Round.state {β : Type} : Round β → β
  | .exit b => b
  | .again b => b
  | .last b => b

variable {τ ε α β : Type}

namespace Cursor

/-- Write something down. -/
def note (e : Event) (c : Cursor τ) : Cursor τ := { c with log := e :: c.log }

/-- The number of tokens before the end marker. -/
def remaining (c : Cursor τ) : ℕ := c.toks.length - 1 - c.pos

end Cursor

namespace Parse

instance : Monad (Parse τ ε) where
  pure a c := (.ok a, c)
  bind p f c :=
    match p c with
    | (.ok a, c) => f a c
    | (.err e, c) => (.err e, c)
    | (.panic, c) => (.panic, c)
    | (.outOfFuel, c) => (.outOfFuel, c)

/-- Report an error. -/
def fail (e : ε) : Parse τ ε α := fun c ↦ (.err e, c)

/-- The bound was too small. -/
def outOfFuel : Parse τ ε α := fun c ↦ (.outOfFuel, c)

/-- The token under the cursor. -/
def current : Parse τ ε τ := fun c ↦
  match c.toks[c.pos]? with
  | some t => (.ok t, c.note (.look c.pos))
  | none => (.panic, c.note (.look c.pos))

/-- The token `off` places on, or else the last one. -/
def lookahead (off : ℕ) : Parse τ ε τ := fun c ↦
  match c.toks.getLast? with
  | some last => (.ok (c.toks[c.pos + off]?.getD last), c.note (.look c.pos))
  | none => (.panic, c.note (.look c.pos))

/-- Move the cursor on. -/
def advance : Parse τ ε Unit := fun c ↦ (.ok (), { c.note (.pass c.pos) with pos := c.pos + 1 })

/-- Take an error for an answer. -/
def attempt (p : Parse τ ε α) : Parse τ ε (Option α) := fun c ↦
  match p c with
  | (.ok a, c) => (.ok (some a), c)
  | (.err _, c) => (.ok none, c)
  | (.panic, c) => (.panic, c)
  | (.outOfFuel, c) => (.outOfFuel, c)

/-- Write down that a round that began at `start` is complete. -/
def completed (start : ℕ) : Parse τ ε Unit := fun c ↦ (.ok (), c.note (.round start c.pos))

/-- Where the cursor is. -/
def position : Parse τ ε ℕ := fun c ↦ (.ok c.pos, c)

/-- A loop, for at most so many rounds. -/
def loop (body : β → Parse τ ε (Round β)) : ℕ → β → Parse τ ε β
  | 0, _ => outOfFuel
  | fuel + 1, b => do
    let start ← position
    match ← body b with
    | .exit b => pure b
    | .again b =>
      completed start
      loop body fuel b
    | .last b =>
      completed start
      pure b

/-- `while cond { body }`. -/
def whileLoop (cond : Parse τ ε Bool) (body : β → Parse τ ε β) : ℕ → β → Parse τ ε β :=
  loop fun b ↦ do if ← cond then return .again (← body b) else return .exit b

end Parse

namespace Parse

variable {p : Parse τ ε α} {f : α → Parse τ ε β} {c c' : Cursor τ} {a : α}

theorem bind_apply (p : Parse τ ε α) (f : α → Parse τ ε β) (c : Cursor τ) :
    (p >>= f) c = match p c with
      | (.ok a, c) => f a c
      | (.err e, c) => (.err e, c)
      | (.panic, c) => (.panic, c)
      | (.outOfFuel, c) => (.outOfFuel, c) := rfl

theorem bind_ok (h : p c = (.ok a, c')) : (p >>= f) c = f a c' := by rw [bind_apply, h]

theorem bind_err {e : ε} (h : p c = (.err e, c')) : (p >>= f) c = (.err e, c') := by
  rw [bind_apply, h]

theorem exists_of_bind_ok {b : β} (h : (p >>= f) c = (.ok b, c')) :
    ∃ a c₁, p c = (.ok a, c₁) ∧ f a c₁ = (.ok b, c') := by
  rw [bind_apply] at h
  rcases hres : p c with ⟨_ | _ | _ | _, c₁⟩
  · rw [hres] at h
    exact ⟨_, c₁, rfl, h⟩
  all_goals
    rw [hres] at h
    cases h

private theorem id_map (p : Parse τ ε α) : id <$> p = p := by
  funext c
  show (match p c with
    | (.ok a, c) => (.ok (id a), c)
    | (.err e, c) => (.err e, c)
    | (.panic, c) => (.panic, c)
    | (.outOfFuel, c) => (.outOfFuel, c)) = p c
  rcases p c with ⟨_ | _ | _ | _, c'⟩ <;> rfl

private theorem bind_assoc {γ : Type} (p : Parse τ ε α) (f : α → Parse τ ε β)
    (g : β → Parse τ ε γ) : p >>= f >>= g = p >>= fun a ↦ f a >>= g := by
  funext c
  show (match (match p c with
      | (.ok a, c) => f a c
      | (.err e, c) => (.err e, c)
      | (.panic, c) => (.panic, c)
      | (.outOfFuel, c) => (.outOfFuel, c)) with
    | (.ok a, c) => g a c
    | (.err e, c) => (.err e, c)
    | (.panic, c) => (.panic, c)
    | (.outOfFuel, c) => (.outOfFuel, c)) = (match p c with
      | (.ok a, c) => (f a >>= g) c
      | (.err e, c) => (.err e, c)
      | (.panic, c) => (.panic, c)
      | (.outOfFuel, c) => (.outOfFuel, c))
  rcases p c with ⟨_ | _ | _ | _, c'⟩ <;> rfl

instance : LawfulMonad (Parse τ ε) :=
  LawfulMonad.mk' _ id_map (fun _ _ ↦ rfl) bind_assoc

end Parse

/-! ## The contract -/

/-- What may be noted when the last index of the vector is `last`: the cursor does not leave the
vector, it does not pass the last token, and a round moves it. -/
def Event.Ok (last : ℕ) : Event → Prop
  | .look pos => pos ≤ last
  | .pass pos => pos < last
  | .round start pos => start < pos

/-- The answer meets the condition, or is an error. -/
def Outcome.Meets (post : α → Prop) : Outcome ε α → Prop
  | .ok a => post a
  | .err _ => True
  | .panic => False
  | .outOfFuel => False

theorem Outcome.Meets.imp {o : Outcome ε α} {post post' : α → Prop} (h : o.Meets post)
    (himp : ∀ a, post a → post' a) : o.Meets post' := by
  cases o with
  | ok a => exact himp a h
  | err e => trivial
  | panic => exact h
  | outOfFuel => exact h

theorem Outcome.Meets.ok_or_err {o : Outcome ε α} {post : α → Prop} (h : o.Meets post) :
    (∃ a, o = .ok a) ∨ ∃ e, o = .err e := by
  cases o with
  | ok a => exact .inl ⟨a, rfl⟩
  | err e => exact .inr ⟨e, rfl⟩
  | panic => exact h.elim
  | outOfFuel => exact h.elim

/-- The cursor is in the vector, the vector ends with an end marker, and the rules were kept. -/
structure Cursor.Valid (stop : τ → Prop) (c : Cursor τ) : Prop where
  pos_lt : c.pos < c.toks.length
  stop_last : ∀ t ∈ c.toks.getLast?, stop t
  log : ∀ e ∈ c.log, e.Ok (c.toks.length - 1)

/-- With fewer than `n` tokens left before the end marker, and the one under the cursor as `pre`
says, the parser keeps the rules, does not move back, ends with an answer or an error, and has moved
by at least `k a` when the answer is `a`. -/
def Safe (stop : τ → Prop) (n : ℕ) (pre : τ → Prop) (p : Parse τ ε α) (k : α → ℕ) : Prop :=
  ∀ c : Cursor τ, c.Valid stop → (∀ t ∈ c.toks[c.pos]?, pre t) → c.remaining < n →
    (p c).2.toks = c.toks ∧ (p c).2.Valid stop ∧ c.pos ≤ (p c).2.pos
      ∧ (p c).1.Meets fun a ↦ c.pos + k a ≤ (p c).2.pos

/-- **The contract**: with fewer than `n` tokens left the parser is safe, and moves by at least `k`
when it succeeds. -/
def Consumes (stop : τ → Prop) (n : ℕ) (p : Parse τ ε α) (k : ℕ) : Prop :=
  Safe stop n (fun _ ↦ True) p fun _ ↦ k

variable {stop pre pre' : τ → Prop} {n n' : ℕ} {p : Parse τ ε α} {f : α → Parse τ ε β}
  {k k' : α → ℕ} {c : Cursor τ}

namespace Cursor

theorem Valid.note {e : Event} (h : c.Valid stop) (he : e.Ok (c.toks.length - 1)) :
    (c.note e).Valid stop :=
  ⟨h.pos_lt, h.stop_last, List.forall_mem_cons.mpr ⟨he, h.log⟩⟩

theorem Valid.look (h : c.Valid stop) : (c.note (.look c.pos)).Valid stop :=
  h.note (Nat.le_sub_one_of_lt h.pos_lt)

theorem Valid.exists_getElem? (h : c.Valid stop) : ∃ t, c.toks[c.pos]? = some t :=
  ⟨_, List.getElem?_eq_getElem h.pos_lt⟩

end Cursor

namespace Safe

theorem mono (h : Safe stop n' pre' p k') (hn : n ≤ n') (hpre : ∀ t, pre t → pre' t)
    (hk : ∀ a, k a ≤ k' a) : Safe stop n pre p k := by
  intro c hc ht hrem
  obtain ⟨htoks, hvalid, hpos, hmeets⟩ :=
    h c hc (fun t hmem ↦ hpre t (ht t hmem)) (hrem.trans_le hn)
  exact ⟨htoks, hvalid, hpos, hmeets.imp fun a ha ↦ (Nat.add_le_add_left (hk a) _).trans ha⟩

theorem pure (a : α) : Safe stop n pre (pure a : Parse τ ε α) fun _ ↦ 0 :=
  fun _ hc _ _ ↦ ⟨rfl, hc, le_rfl, le_rfl⟩

theorem fail (e : ε) : Safe stop n pre (Parse.fail e : Parse τ ε α) k :=
  fun _ hc _ _ ↦ ⟨rfl, hc, le_rfl, trivial⟩

/-- **One parser after another.** What the first has consumed need not be there for the second. -/
theorem bind {j : α → ℕ} {i : β → ℕ} (hp : Safe stop n pre p j)
    (hf : ∀ a, Safe stop (n - j a) (fun _ ↦ True) (f a) fun b ↦ i b - j a) :
    Safe stop n pre (p >>= f) i := by
  intro c hc ht hrem
  obtain ⟨htoks, hvalid, hpos, hmeets⟩ := hp c hc ht hrem
  rcases hres : p c with ⟨o, c'⟩
  rw [hres] at htoks hvalid hpos hmeets
  cases o with
  | err e =>
    rw [Parse.bind_err hres]
    exact ⟨htoks, hvalid, hpos, trivial⟩
  | panic => exact hmeets.elim
  | outOfFuel => exact hmeets.elim
  | ok a =>
    rw [Parse.bind_ok hres]
    dsimp only [Outcome.Meets] at htoks hvalid hpos hmeets
    have hlt := hvalid.pos_lt
    rw [htoks] at hlt
    obtain ⟨htoks', hvalid', hpos', hmeets'⟩ := hf a c' hvalid (fun _ _ ↦ trivial) (by
      rw [Cursor.remaining, htoks]
      rw [Cursor.remaining] at hrem
      omega)
    refine ⟨htoks'.trans htoks, hvalid', hpos.trans hpos', hmeets'.imp fun b hb ↦ ?_⟩
    dsimp only at hb
    omega

theorem current_bind {f : τ → Parse τ ε β} {i : β → ℕ}
    (hf : ∀ t, pre t → Safe stop n (fun t' ↦ t' = t) (f t) i) :
    Safe stop n pre (Parse.current >>= f) i := by
  intro c hc ht hrem
  obtain ⟨t, hget⟩ := hc.exists_getElem?
  have hrun : (Parse.current : Parse τ ε τ) c = (.ok t, c.note (.look c.pos)) := by
    rw [Parse.current, hget]
  rw [Parse.bind_ok hrun]
  refine hf t (ht t hget) (c.note (.look c.pos)) hc.look (fun t' ht' ↦ ?_) hrem
  exact Option.some.inj (ht'.symm.trans hget)

theorem lookahead_bind {off : ℕ} {f : τ → Parse τ ε β} {i : β → ℕ}
    (hf : ∀ t, Safe stop n pre (f t) i) : Safe stop n pre (Parse.lookahead off >>= f) i := by
  intro c hc ht hrem
  obtain ⟨last, hlast⟩ : ∃ last, c.toks.getLast? = some last := by
    rw [← Option.ne_none_iff_exists', Ne, List.getLast?_eq_none_iff]
    exact List.ne_nil_of_length_pos (c.pos.zero_le.trans_lt hc.pos_lt)
  have hrun : (Parse.lookahead off : Parse τ ε τ) c
      = (.ok (c.toks[c.pos + off]?.getD last), c.note (.look c.pos)) := by
    rw [Parse.lookahead, hlast]
  rw [Parse.bind_ok hrun]
  exact hf _ (c.note (.look c.pos)) hc.look ht hrem

theorem advance (h : ∀ t, pre t → ¬stop t) :
    Safe stop n pre (Parse.advance : Parse τ ε Unit) fun _ ↦ 1 := by
  intro c hc ht hrem
  obtain ⟨t, hget⟩ := hc.exists_getElem?
  -- it is not the last token
  have hlt : c.pos < c.toks.length - 1 := by
    refine lt_of_le_of_ne (Nat.le_sub_one_of_lt hc.pos_lt) fun heq ↦ ?_
    refine h t (ht t hget) (hc.stop_last t ?_)
    rw [List.getLast?_eq_getElem?, ← heq]
    exact hget
  refine ⟨rfl, ⟨?_, hc.stop_last, List.forall_mem_cons.mpr ⟨hlt, hc.log⟩⟩, Nat.le_succ _, le_rfl⟩
  exact Nat.add_lt_of_lt_sub hlt

/-- An error taken for an answer has consumed nothing for sure. -/
theorem attempt {k : α → ℕ} (hp : Safe stop n pre p k) :
    Safe stop n pre p.attempt fun a ↦ a.elim 0 k := by
  intro c hc ht hrem
  obtain ⟨htoks, hvalid, hpos, hmeets⟩ := hp c hc ht hrem
  rcases hres : p c with ⟨o, c'⟩
  rw [hres] at htoks hvalid hpos hmeets
  cases o with
  | ok a =>
    have hrun : p.attempt c = (.ok (some a), c') := by rw [Parse.attempt, hres]
    rw [hrun]
    exact ⟨htoks, hvalid, hpos, hmeets⟩
  | err e =>
    have hrun : p.attempt c = (.ok none, c') := by rw [Parse.attempt, hres]
    rw [hrun]
    exact ⟨htoks, hvalid, hpos, hpos⟩
  | panic => exact hmeets.elim
  | outOfFuel => exact hmeets.elim

end Safe

/-- What a round has to consume. -/
def Round.cost : Round β → ℕ
  | .exit _ => 0
  | .again _ => 1
  | .last _ => 1

namespace Safe

/-- **A loop**, every round of which consumes something, needs no more fuel than there are tokens.
-/
theorem loop {body : β → Parse τ ε (Round β)}
    (hbody : ∀ b, Safe stop n (fun _ ↦ True) (body b) Round.cost) {fuel : ℕ} (hfuel : n ≤ fuel)
    (b : β) : Safe stop n pre (Parse.loop body fuel b) fun _ ↦ 0 := by
  induction fuel generalizing n b pre with
  | zero =>
    intro c _ _ hrem
    exact absurd hrem (by omega)
  | succ fuel ih =>
    intro c hc _ hrem
    obtain ⟨htoks, hvalid, hpos, hmeets⟩ := hbody b c hc (fun _ _ ↦ trivial) hrem
    have hstart : (Parse.position : Parse τ ε ℕ) c = (.ok c.pos, c) := rfl
    rw [Parse.loop, Parse.bind_ok hstart]
    rcases hres : body b c with ⟨o, c'⟩
    rw [hres] at htoks hvalid hpos hmeets
    cases o with
    | err e =>
      rw [Parse.bind_err hres]
      exact ⟨htoks, hvalid, hpos, trivial⟩
    | panic => exact hmeets.elim
    | outOfFuel => exact hmeets.elim
    | ok r =>
      rw [Parse.bind_ok hres]
      cases r with
      | exit b => exact ⟨htoks, hvalid, hpos, hpos⟩
      | last b =>
        have hvalid' := hvalid.note (e := .round c.pos c'.pos) hmeets
        exact ⟨htoks, hvalid', hpos, hpos⟩
      | again b =>
        have hmove : c.pos < c'.pos := hmeets
        have hvalid' := hvalid.note (e := .round c.pos c'.pos) hmove
        have hlt := hvalid.pos_lt
        dsimp only at htoks hlt
        rw [htoks] at hlt
        have hrem' : (c'.note (.round c.pos c'.pos)).remaining < n - 1 := by
          rw [Cursor.remaining] at hrem
          show c'.toks.length - 1 - c'.pos < n - 1
          rw [htoks]
          omega
        have hbody' : ∀ b, Safe stop (n - 1) (fun _ ↦ True) (body b) Round.cost :=
          fun b ↦ (hbody b).mono (Nat.sub_le n 1) (fun _ h ↦ h) fun _ ↦ le_rfl
        have hrest : Safe stop (n - 1) (fun _ ↦ True) (Parse.loop body fuel b) fun _ ↦ 0 :=
          ih hbody' (by omega) b
        obtain ⟨htoks', hvalid'', hpos', hmeets'⟩ := hrest _ hvalid' (fun _ _ ↦ trivial) hrem'
        exact ⟨htoks'.trans htoks, hvalid'', hpos.trans hpos',
          hmeets'.imp fun _ _ ↦ hpos.trans hpos'⟩

theorem again {g : α → β} (hp : Safe stop n pre p fun _ ↦ 1) :
    Safe stop n pre (p >>= fun a ↦ Pure.pure (Round.again (g a))) Round.cost :=
  hp.bind fun a ↦ Safe.pure (Round.again (g a))

theorem of_consumes {p : Parse τ ε (Round β)} {i : ℕ} (hp : Consumes stop n p i) :
    Safe stop n pre p fun r ↦ r.cost - 1 := by
  refine Safe.mono hp le_rfl (fun _ _ ↦ trivial) fun r ↦ ?_
  cases r <;> exact Nat.zero_le i

end Safe

namespace Consumes

variable {i j : ℕ}

theorem mono (h : Consumes stop n' p j) (hn : n ≤ n') (hj : i ≤ j) : Consumes stop n p i :=
  Safe.mono h hn (fun _ h ↦ h) fun _ ↦ hj

theorem le (h : Consumes stop n' p i) (hn : n ≤ n') : Consumes stop n p i := h.mono hn le_rfl

theorem safe (h : Consumes stop n p i) : Safe stop n pre p fun _ ↦ i :=
  Safe.mono h le_rfl (fun _ _ ↦ trivial) fun _ ↦ le_rfl

theorem zero : Consumes stop 0 p i := fun _ _ _ hrem ↦ absurd hrem (Nat.not_lt_zero _)

theorem pure (a : α) : Consumes stop n (pure a : Parse τ ε α) 0 := Safe.pure a

theorem bind (hp : Consumes stop n p j) (hf : ∀ a, Consumes stop (n - j) (f a) (i - j)) :
    Consumes stop n (p >>= f) i := Safe.bind hp hf

theorem bind_pure {g : α → β} (hp : Consumes stop n p i) :
    Consumes stop n (p >>= fun a ↦ Pure.pure (g a)) i :=
  hp.bind fun a ↦ (pure (g a)).mono le_rfl (Nat.sub_self i).le

theorem whileRound {cond : Parse τ ε Bool} {body : β → Parse τ ε β}
    (hcond : Consumes stop n cond 0) (hbody : ∀ b, Consumes stop n (body b) 1) (b : β) :
    Safe stop n pre (do if ← cond then return .again (← body b) else return .exit b)
      Round.cost := by
  refine Safe.bind hcond.safe fun more ↦ ?_
  cases more with
  | false => exact Safe.pure _
  | true => exact Safe.again (hbody b)

theorem whileLoop {cond : Parse τ ε Bool} {body : β → Parse τ ε β}
    (hcond : Consumes stop n cond 0) (hbody : ∀ b, Consumes stop n (body b) 1) {fuel : ℕ}
    (hfuel : n ≤ fuel) (b : β) : Consumes stop n (Parse.whileLoop cond body fuel b) 0 :=
  Safe.loop (whileRound hcond hbody) hfuel b

end Consumes

/-! ## What a parser returns -/

/-- With fewer than `n` tokens left, the one under the cursor being as `pre` says and all of them as
`good` says, what the parser returns is as `post` says. -/
def Finds (stop good : τ → Prop) (n : ℕ) (pre : τ → Prop) (p : Parse τ ε α) (post : α → Prop) :
    Prop :=
  ∀ c : Cursor τ, c.Valid stop → (∀ t ∈ c.toks[c.pos]?, pre t) → c.remaining < n →
    (∀ t ∈ c.toks, good t) → ∀ a c', p c = (.ok a, c') → post a

namespace Finds

variable {good : τ → Prop} {post : α → Prop} {post' : β → Prop} {j : ℕ}

theorem mono {post'' : α → Prop} (h : Finds stop good n' pre' p post) (hn : n ≤ n')
    (hpre : ∀ t, pre t → pre' t) (himp : ∀ a, post a → post'' a) :
    Finds stop good n pre p post'' := fun c hc ht hrem hgood a c' heq ↦
  himp a (h c hc (fun t hmem ↦ hpre t (ht t hmem)) (hrem.trans_le hn) hgood a c' heq)

theorem imp {post'' : α → Prop} (h : Finds stop good n pre p post)
    (himp : ∀ a, post a → post'' a) : Finds stop good n pre p post'' :=
  h.mono le_rfl (fun _ h ↦ h) himp

theorem weaken (h : Finds stop good n (fun _ ↦ True) p post) : Finds stop good n pre p post :=
  h.mono le_rfl (fun _ _ ↦ True.intro) fun _ h ↦ h

theorem trivial : Finds stop good n pre p fun _ ↦ True := fun _ _ _ _ _ _ _ _ ↦ True.intro

theorem pure {a : α} (h : post a) : Finds stop good n pre (pure a : Parse τ ε α) post := by
  intro c _ _ _ _ a' c' heq
  cases heq
  exact h

theorem fail (e : ε) : Finds stop good n pre (Parse.fail e : Parse τ ε α) post := by
  intro c _ _ _ _ a c' heq
  cases heq

theorem ite {c : Prop} [Decidable c] {q : Parse τ ε α} (hp : c → Finds stop good n pre p post)
    (hq : ¬c → Finds stop good n pre q post) : Finds stop good n pre (if c then p else q) post := by
  split_ifs with hc
  · exact hp hc
  · exact hq hc

theorem zero : Finds stop good 0 pre p post :=
  fun _ _ _ hrem ↦ absurd hrem (Nat.not_lt_zero _)

/-- **One parser after another.** -/
theorem bind (hp : Safe stop n pre p fun _ ↦ j) (hpost : Finds stop good n pre p post)
    (hf : ∀ a, post a → Finds stop good (n - j) (fun _ ↦ True) (f a) post') :
    Finds stop good n pre (p >>= f) post' := by
  intro c hc ht hrem hgood b c' heq
  obtain ⟨a, c₁, hres, hrest⟩ := Parse.exists_of_bind_ok heq
  obtain ⟨htoks, hvalid, -, hmeets⟩ := hp c hc ht hrem
  rw [hres] at htoks hvalid hmeets
  dsimp only [Outcome.Meets] at htoks hvalid hmeets
  have hlt := hvalid.pos_lt
  rw [htoks] at hlt
  refine hf a (hpost c hc ht hrem hgood a c₁ hres) c₁ hvalid (fun _ _ ↦ True.intro) ?_
    (by rwa [htoks]) b c' hrest
  rw [Cursor.remaining] at hrem ⊢
  rw [htoks]
  omega

theorem after (hp : Safe stop n pre p fun _ ↦ j)
    (hf : ∀ a, Finds stop good (n - j) (fun _ ↦ True) (f a) post') :
    Finds stop good n pre (p >>= f) post' := bind hp trivial fun a _ ↦ hf a

theorem current_bind {f : τ → Parse τ ε β}
    (hf : ∀ t, good t → pre t → Finds stop good n (fun t' ↦ t' = t) (f t) post') :
    Finds stop good n pre (Parse.current >>= f) post' := by
  intro c hc ht hrem hgood b c' heq
  obtain ⟨t, hget⟩ := hc.exists_getElem?
  have hrun : (Parse.current : Parse τ ε τ) c = (.ok t, c.note (.look c.pos)) := by
    rw [Parse.current, hget]
  rw [Parse.bind_ok hrun] at heq
  refine hf t (hgood t (List.mem_of_getElem? hget)) (ht t hget) (c.note (.look c.pos)) hc.look
    (fun t' ht' ↦ ?_) hrem hgood b c' heq
  exact Option.some.inj (ht'.symm.trans hget)

theorem lookahead_bind {off : ℕ} {f : τ → Parse τ ε β}
    (hf : ∀ t, Finds stop good n pre (f t) post') :
    Finds stop good n pre (Parse.lookahead off >>= f) post' := by
  intro c hc ht hrem hgood b c' heq
  obtain ⟨t, c₁, hlook, hrest⟩ := Parse.exists_of_bind_ok heq
  rw [Parse.lookahead] at hlook
  split at hlook <;> cases hlook
  exact hf _ (c.note (.look c.pos)) hc.look ht hrem hgood b c' hrest

theorem bind_pure {g : α → β} (h : Finds stop good n pre p fun a ↦ post' (g a)) :
    Finds stop good n pre (p >>= fun a ↦ Pure.pure (g a)) post' := by
  intro c hc ht hrem hgood b c' heq
  obtain ⟨a, c₁, hres, hrest⟩ := Parse.exists_of_bind_ok heq
  cases hrest
  exact h c hc ht hrem hgood a _ hres

theorem before {γ : Type} {q : Parse τ ε γ} {b : β} (h : post' b) :
    Finds stop good n pre (q >>= fun _ ↦ Pure.pure b) post' :=
  bind_pure fun _ _ _ _ _ _ _ _ ↦ h

/-- **A loop** keeps what each of its rounds keeps. -/
theorem loop {body : β → Parse τ ε (Round β)}
    (hbody : ∀ b, Safe stop n (fun _ ↦ True) (body b) Round.cost)
    (hpost : ∀ b, post' b → Finds stop good n (fun _ ↦ True) (body b) fun r ↦ post' r.state)
    (fuel : ℕ) {b : β} (hb : post' b) : Finds stop good n pre (Parse.loop body fuel b) post' := by
  refine weaken ?_
  induction fuel generalizing b with
  | zero =>
    intro c _ _ _ _ a c' heq
    cases heq
  | succ fuel ih =>
    intro c hc ht hrem hgood a c' heq
    obtain ⟨start, c₁, hstart, hround⟩ := Parse.exists_of_bind_ok heq
    cases hstart
    obtain ⟨r, c₂, hres, hrest⟩ := Parse.exists_of_bind_ok hround
    have hr := hpost b hb c hc ht hrem hgood r c₂ hres
    obtain ⟨htoks, hvalid, hpos, hmeets⟩ := hbody b c hc ht hrem
    rw [hres] at htoks hvalid hpos hmeets
    cases r with
    | exit b =>
      cases hrest
      exact hr
    | last b =>
      cases hrest
      exact hr
    | again b =>
      have hmove : c.pos < c₂.pos := hmeets
      have hvalid' := hvalid.note (e := .round c.pos c₂.pos) hmove
      refine ih hr (c₂.note (.round c.pos c₂.pos)) hvalid' (fun _ _ ↦ True.intro) ?_
        (fun t ht ↦ ?_) a c' hrest
      · show c₂.toks.length - 1 - c₂.pos < n
        rw [Cursor.remaining] at hrem
        dsimp only at htoks
        rw [htoks]
        omega
      · exact hgood t (htoks ▸ ht)

theorem whileLoop {cond : Parse τ ε Bool} {body : β → Parse τ ε β}
    (hcond : Consumes stop n cond 0) (hbody : ∀ b, Consumes stop n (body b) 1)
    (hpost : ∀ b, post' b → Finds stop good n (fun _ ↦ True) (body b) post') (fuel : ℕ) {b : β}
    (hb : post' b) : Finds stop good n pre (Parse.whileLoop cond body fuel b) post' := by
  refine loop (Consumes.whileRound hcond hbody)
    (fun b hb ↦ after (j := 0) hcond.safe fun more ↦ ?_) fuel hb
  cases more with
  | false => exact pure hb
  | true => exact bind_pure (hpost b hb)

end Finds

end Zeroxos
