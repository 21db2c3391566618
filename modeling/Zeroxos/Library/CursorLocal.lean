import Zeroxos.Library.CursorRuns

/-!
# What a parser with a cursor depends on

A contract for parsers that look no further than one token behind the cursor. It has two halves. On
its way the parser passes only tokens of a certain sort; and what it does depends on the tokens from
where it begins to one behind where it ends, and on nothing before, behind or written in the log.
Every way to put parsers together keeps the contract.
-/

namespace Zeroxos

variable {τ ε α β : Type}

/-- The same tokens on the first `n` places from the cursor on, and the same last one. -/
structure Cursor.Agree (n : ℕ) (c c' : Cursor τ) : Prop where
  get_eq : ∀ i < n, c'.toks[c'.pos + i]? = c.toks[c.pos + i]?
  last_eq : c'.toks.getLast? = c.toks.getLast?

/-- A run that passes only good tokens, and that any cursor repeats which agrees with this one as
far as the run looks. -/
structure LocalRun (good : τ → Prop) (p : Parse τ ε α) (c : Cursor τ) : Prop where
  toks_eq : (p c).2.toks = c.toks
  pos_le : c.pos ≤ (p c).2.pos
  passed : ∀ i, c.pos ≤ i → i < (p c).2.pos → ∀ t ∈ c.toks[i]?, good t
  repeated : ∀ n c', c.Agree n c' → (p c).2.pos + 2 ≤ c.pos + n →
    (p c').1 = (p c).1 ∧ (p c').2.pos + c.pos = (p c).2.pos + c'.pos

/-- **The contract**, of a parser in front of a token that is as `pre` says. -/
def Local (good pre : τ → Prop) (p : Parse τ ε α) : Prop :=
  ∀ c : Cursor τ, (∀ t ∈ c.toks[c.pos]?, pre t) → LocalRun good p c

variable {good good' pre pre' : τ → Prop} {p : Parse τ ε α} {f : α → Parse τ ε β} {n m : ℕ}
  {c c' d d' : Cursor τ}

namespace Cursor.Agree

theorem mono (h : c.Agree n c') (hm : m ≤ n) : c.Agree m c' :=
  ⟨fun i hi ↦ h.get_eq i (hi.trans_le hm), h.last_eq⟩

theorem shift (h : c.Agree n c') (htoks : d.toks = c.toks) (htoks' : d'.toks = c'.toks)
    (hpos : c.pos ≤ d.pos) (hpos' : d'.pos + c.pos = d.pos + c'.pos) (hm : d.pos + m ≤ c.pos + n) :
    d.Agree m d' := by
  refine ⟨fun i hi ↦ ?_, by rw [htoks, htoks', h.last_eq]⟩
  have hget := h.get_eq (d.pos - c.pos + i) (by omega)
  have hd : d.pos = c.pos + (d.pos - c.pos) := by omega
  have hd' : d'.pos = c'.pos + (d.pos - c.pos) := by omega
  rw [htoks, htoks', hd, hd', Nat.add_assoc, Nat.add_assoc]
  simpa using hget

theorem of_rest (h : c.rest = c'.rest) (hlast : c'.toks.getLast? = c.toks.getLast?) (n : ℕ) :
    c.Agree n c' := by
  refine ⟨fun i _ ↦ ?_, hlast⟩
  have hget := congrArg (·[i]?) h
  simpa only [Cursor.rest, List.getElem?_drop] using hget.symm

end Cursor.Agree

namespace Local

theorem mono (h : Local good' pre' p) (hgood : ∀ t, good' t → good t) (hpre : ∀ t, pre t → pre' t) :
    Local good pre p := by
  intro c hc
  have hrun := h c fun t ht ↦ hpre t (hc t ht)
  exact ⟨hrun.toks_eq, hrun.pos_le, fun i hi hi' t ht ↦ hgood t (hrun.passed i hi hi' t ht),
    hrun.repeated⟩

theorem of_true (h : Local good (fun _ ↦ True) p) : Local good pre p :=
  h.mono (fun _ ↦ id) fun _ _ ↦ trivial

theorem stay (hstay : ∀ c, (p c).2.toks = c.toks ∧ (p c).2.pos = c.pos)
    (hout : ∀ c c', c.Agree 2 c' → (p c').1 = (p c).1) : Local good pre p := by
  intro c _
  obtain ⟨htoks, hpos⟩ := hstay c
  refine ⟨htoks, hpos.ge, fun i hi hi' ↦ ?_, fun n c' hagree hn ↦ ?_⟩
  · rw [hpos] at hi'
    exact absurd (hi.trans_lt hi') (lt_irrefl _)
  · rw [hpos] at hn ⊢
    rw [(hstay c').2]
    exact ⟨hout c c' (hagree.mono (by omega)), Nat.add_comm _ _⟩

theorem pure (a : α) : Local good pre (pure a : Parse τ ε α) :=
  stay (fun _ ↦ ⟨rfl, rfl⟩) fun _ _ _ ↦ rfl

theorem fail (e : ε) : Local good pre (Parse.fail e : Parse τ ε α) :=
  stay (fun _ ↦ ⟨rfl, rfl⟩) fun _ _ _ ↦ rfl

theorem outOfFuel : Local good pre (Parse.outOfFuel : Parse τ ε α) :=
  stay (fun _ ↦ ⟨rfl, rfl⟩) fun _ _ _ ↦ rfl

theorem completed (start : ℕ) : Local good pre (Parse.completed start : Parse τ ε Unit) :=
  stay (fun _ ↦ ⟨rfl, rfl⟩) fun _ _ _ ↦ rfl

private theorem current_eq (c : Cursor τ) : (Parse.current : Parse τ ε τ) c
    = (c.toks[c.pos]?.elim .panic .ok, c.note (.look c.pos)) := by
  rw [Parse.current]
  cases c.toks[c.pos]? <;> rfl

private theorem lookahead_eq (off : ℕ) (c : Cursor τ) : (Parse.lookahead off : Parse τ ε τ) c
    = (c.toks.getLast?.elim .panic fun last ↦ .ok (c.toks[c.pos + off]?.getD last),
      c.note (.look c.pos)) := by
  rw [Parse.lookahead]
  cases c.toks.getLast? <;> rfl

theorem current : Local good pre (Parse.current : Parse τ ε τ) := by
  refine stay (fun c ↦ ?_) fun c c' h ↦ ?_
  · rw [current_eq]
    exact ⟨rfl, rfl⟩
  · have hget := h.get_eq 0 (by decide)
    rw [Nat.add_zero, Nat.add_zero] at hget
    rw [current_eq, current_eq, hget]

theorem lookahead {off : ℕ} (hoff : off < 2) :
    Local good pre (Parse.lookahead off : Parse τ ε τ) := by
  refine stay (fun c ↦ ?_) fun c c' h ↦ ?_
  · rw [lookahead_eq]
    exact ⟨rfl, rfl⟩
  · rw [lookahead_eq, lookahead_eq, h.get_eq off hoff, h.last_eq]

theorem advance (h : ∀ t, pre t → good t) : Local good pre (Parse.advance : Parse τ ε Unit) := by
  intro c hc
  refine ⟨rfl, Nat.le_succ _, fun i hi hi' t ht ↦ ?_, fun n c' _ _ ↦ ⟨rfl, ?_⟩⟩
  · have hlt : i < c.pos + 1 := hi'
    obtain rfl : i = c.pos := by omega
    exact h t (hc t ht)
  · show c'.pos + 1 + c.pos = c.pos + 1 + c'.pos
    omega

theorem ite {q : Parse τ ε α} {b : Prop} [Decidable b] (hp : b → Local good pre p)
    (hq : ¬b → Local good pre q) : Local good pre (if b then p else q) := by
  split_ifs with h
  · exact hp h
  · exact hq h

theorem pre_of_agree (hc : ∀ t ∈ c.toks[c.pos]?, pre t) (h : c.Agree n c') (hn : 0 < n) :
    ∀ t ∈ c'.toks[c'.pos]?, pre t := by
  have hget := h.get_eq 0 hn
  rw [Nat.add_zero, Nat.add_zero] at hget
  rwa [hget]

/-- How a parser ends that another one was to follow. -/
private def stopped : Outcome ε α → Option (Outcome ε β)
  | .ok _ => none
  | .err e => some (.err e)
  | .panic => some .panic
  | .outOfFuel => some .outOfFuel

private theorem bind_stopped {o : Outcome ε β} (h : stopped (p c).1 = some o) :
    (p >>= f) c = (o, (p c).2) := by
  rw [Parse.bind_apply]
  rcases hres : p c with ⟨_ | _ | _ | _, d⟩ <;> rw [hres] at h <;> cases h <;> rfl

/-- One parser after another, of which the second may rely on what the first has found. -/
theorem bind_run (hp : Local good pre p)
    (hf : ∀ c, (∀ t ∈ c.toks[c.pos]?, pre t) → ∀ a, (p c).1 = .ok a → LocalRun good (f a) (p c).2) :
    Local good pre (p >>= f) := by
  intro c hc
  have hfirst := hp c hc
  cases hstop : stopped (β := β) (p c).1 with
  | some o =>
    have hrun : (p >>= f) c = (o, (p c).2) := bind_stopped hstop
    refine ⟨by rw [hrun]; exact hfirst.toks_eq, by rw [hrun]; exact hfirst.pos_le,
      by rw [hrun]; exact hfirst.passed, fun n c' hagree hn ↦ ?_⟩
    rw [hrun] at hn ⊢
    obtain ⟨ho, hpos⟩ := hfirst.repeated n c' hagree hn
    have hrun' : (p >>= f) c' = (o, (p c').2) := bind_stopped (ho ▸ hstop)
    rw [hrun']
    exact ⟨rfl, hpos⟩
  | none =>
    obtain ⟨a, hok⟩ : ∃ a, (p c).1 = .ok a := by
      cases ho : (p c).1 with
      | ok a => exact ⟨a, rfl⟩
      | _ => cases ho ▸ hstop
    have hrun : (p >>= f) c = f a (p c).2 := Parse.bind_ok (Prod.ext hok rfl)
    have hsecond := hf c hc a hok
    refine ⟨?_, ?_, fun i hi hi' t ht ↦ ?_, fun n c' hagree hn ↦ ?_⟩
    · rw [hrun, hsecond.toks_eq, hfirst.toks_eq]
    · rw [hrun]
      exact hfirst.pos_le.trans hsecond.pos_le
    · rw [hrun] at hi'
      by_cases hlt : i < (p c).2.pos
      · exact hfirst.passed i hi hlt t ht
      · exact hsecond.passed i (not_lt.mp hlt) hi' t (by rwa [hfirst.toks_eq])
    · rw [hrun] at hn ⊢
      have hpos := hfirst.pos_le
      have hpos' := hsecond.pos_le
      obtain ⟨ho, hmoved⟩ := hfirst.repeated n c' hagree (by omega)
      have htoks := (hp c' (pre_of_agree hc hagree (by omega))).toks_eq
      have hshift := hagree.shift (m := c.pos + n - (p c).2.pos) hfirst.toks_eq htoks hpos hmoved
        (by omega)
      obtain ⟨ho', hmoved'⟩ := hsecond.repeated _ _ hshift (by omega)
      have hrun' : (p >>= f) c' = f a (p c').2 := Parse.bind_ok (Prod.ext (ho.trans hok) rfl)
      rw [hrun']
      exact ⟨ho', by omega⟩

/-- **One parser after another.** -/
theorem bind (hp : Local good pre p) (hf : ∀ a, Local good (fun _ ↦ True) (f a)) :
    Local good pre (p >>= f) :=
  hp.bind_run fun _ _ a _ ↦ hf a _ fun _ _ ↦ trivial

theorem bind_pure {g : α → β} (hp : Local good pre p) :
    Local good pre (p >>= fun a ↦ Pure.pure (g a)) := hp.bind fun _ ↦ pure _

theorem current_bind {f : τ → Parse τ ε β} (hf : ∀ t, pre t → Local good (fun t' ↦ t' = t) (f t)) :
    Local good pre (Parse.current >>= f) := by
  refine current.bind_run fun c hc t hok ↦ ?_
  have hget : c.toks[c.pos]? = some t := by
    rw [current_eq] at hok
    cases hget : c.toks[c.pos]? with
    | none => cases hget ▸ hok
    | some t' => cases hget ▸ hok; rfl
  rw [current_eq]
  exact hf t (hc t hget) _ fun t' ht' ↦ Option.some.inj (ht'.symm.trans hget)

theorem lookahead_bind {f : τ → Parse τ ε β} (hf : ∀ t, Local good pre (f t)) :
    Local good pre (Parse.lookahead 1 >>= f) := by
  refine (lookahead (by decide)).bind_run fun c hc t _ ↦ ?_
  rw [lookahead_eq]
  exact hf t _ hc

theorem attempt (hp : Local good pre p) : Local good pre (Parse.attempt p) := by
  intro c hc
  have hrun := hp c hc
  have hmap : ∀ c, (Parse.attempt p c).2 = (p c).2 ∧ (Parse.attempt p c).1 = match (p c).1 with
      | .ok a => .ok (some a)
      | .err _ => .ok none
      | .panic => .panic
      | .outOfFuel => .outOfFuel := by
    intro c
    rw [Parse.attempt]
    rcases p c with ⟨_ | _ | _ | _, d⟩ <;> exact ⟨rfl, rfl⟩
  obtain ⟨hcursor, hout⟩ := hmap c
  refine ⟨by rw [hcursor]; exact hrun.toks_eq, by rw [hcursor]; exact hrun.pos_le,
    by rw [hcursor]; exact hrun.passed, fun n c' hagree hn ↦ ?_⟩
  rw [hcursor] at hn ⊢
  obtain ⟨ho, hpos⟩ := hrun.repeated n c' hagree hn
  rw [(hmap c').1, (hmap c').2, hout, ho]
  exact ⟨rfl, hpos⟩

theorem note_eq (hp : Local good (fun _ ↦ True) p) (c : Cursor τ) (e e' : Event) :
    (p (c.note e)).1 = (p (c.note e')).1 ∧ (p (c.note e)).2.pos = (p (c.note e')).2.pos := by
  have hrun := hp (c.note e') fun _ _ ↦ trivial
  obtain ⟨ho, hpos⟩ := hrun.repeated ((p (c.note e')).2.pos + 2) (c.note e) ⟨fun _ _ ↦ rfl, rfl⟩
    (by omega)
  exact ⟨ho, Nat.add_right_cancel hpos⟩

/-- What follows a round of a loop, which began at `start`. -/
private def afterRound (more : β → Parse τ ε β) (start : ℕ) : Round β → Parse τ ε β
  | .exit b => Pure.pure b
  | .again b => Parse.completed start >>= fun _ ↦ more b
  | .last b => Parse.completed start >>= fun _ ↦ Pure.pure b

/-- **A loop.** -/
theorem loop {body : β → Parse τ ε (Round β)} (hbody : ∀ b, Local good (fun _ ↦ True) (body b))
    (fuel : ℕ) (b : β) : Local good (fun _ ↦ True) (Parse.loop body fuel b) := by
  induction fuel generalizing b with
  | zero => exact outOfFuel
  | succ fuel ih =>
    let next := afterRound (Parse.loop body fuel)
    have hnext : ∀ start r, Local good (fun _ ↦ True) (next start r) := by
      intro start r
      cases r with
      | exit b => exact pure b
      | again b => exact (completed start).bind fun _ ↦ ih b
      | last b => exact (completed start).bind fun _ ↦ pure b
    have hrun : ∀ c, Parse.loop body (fuel + 1) b c = (body b >>= next c.pos) c := fun _ ↦ rfl
    have hstart : ∀ start start' c, ((body b >>= next start) c).1 = ((body b >>= next start') c).1 ∧
        ((body b >>= next start) c).2.pos = ((body b >>= next start') c).2.pos := by
      intro start start' c
      rcases hres : body b c with ⟨_ | _ | _ | _, d⟩
      · rename_i r
        rw [Parse.bind_ok hres, Parse.bind_ok hres]
        cases r with
        | exit b => exact ⟨rfl, rfl⟩
        | again b => exact (ih b).note_eq d _ _
        | last b => exact ⟨rfl, rfl⟩
      all_goals
        rw [bind_stopped (by rw [hres]; rfl), bind_stopped (by rw [hres]; rfl)]
        exact ⟨rfl, rfl⟩
    intro c hc
    have hlocal := (hbody b).bind (hnext c.pos) c hc
    refine ⟨hrun c ▸ hlocal.toks_eq, hrun c ▸ hlocal.pos_le, hrun c ▸ hlocal.passed,
      fun n c' hagree hn ↦ ?_⟩
    rw [hrun] at hn
    rw [hrun, hrun]
    obtain ⟨ho, hpos⟩ := hstart c'.pos c.pos c'
    rw [ho, hpos]
    exact hlocal.repeated n c' hagree hn

theorem whileLoop {cond : Parse τ ε Bool} {body : β → Parse τ ε β}
    (hcond : Local good (fun _ ↦ True) cond) (hbody : ∀ b, Local good (fun _ ↦ True) (body b))
    (fuel : ℕ) (b : β) : Local good (fun _ ↦ True) (Parse.whileLoop cond body fuel b) := by
  refine loop (fun b ↦ hcond.bind fun more ↦ ?_) fuel b
  exact ite (fun _ ↦ (hbody b).bind_pure) fun _ ↦ pure _

/-! ### What follows from the contract -/

variable {a : α}

theorem moved (hp : Local good (fun _ ↦ True) p) (hrun : p c = (.ok a, d)) :
    d.toks = c.toks ∧ c.pos ≤ d.pos := by
  have hlocal := hp c fun _ _ ↦ trivial
  have htoks := hlocal.toks_eq
  have hpos := hlocal.pos_le
  rw [hrun] at htoks hpos
  exact ⟨htoks, hpos⟩

/-- The tokens that the parser passes are good. -/
theorem forall_passed (hp : Local good (fun _ ↦ True) p) (hrun : p c = (.ok a, d)) {l : List τ}
    (hrest : c.rest = l ++ d.rest) : ∀ t ∈ l, good t := by
  intro t ht
  have hpassed := (hp c fun _ _ ↦ trivial).passed
  obtain ⟨htoks, hpos⟩ := hp.moved hrun
  obtain ⟨i, hi, rfl⟩ := List.mem_iff_getElem.mp ht
  rw [hrun] at hpassed
  have hlength := congrArg List.length hrest
  rw [List.length_append, Cursor.rest, Cursor.rest, List.length_drop, List.length_drop, htoks]
    at hlength
  refine hpassed (c.pos + i) (Nat.le_add_right _ _) (show c.pos + i < d.pos by omega) _ ?_
  rw [← List.getElem?_drop]
  show c.rest[i]? = _
  rw [hrest, List.getElem?_append_left hi, List.getElem?_eq_getElem hi]

theorem of_agree (hp : Local good (fun _ ↦ True) p) (hrun : p c = (.ok a, d)) (h : c.Agree n c')
    (hn : d.pos + 2 ≤ c.pos + n) :
    ∃ d', p c' = (.ok a, d') ∧ d'.toks = c'.toks ∧ d'.pos + c.pos = d.pos + c'.pos := by
  have hrepeated := (hp c fun _ _ ↦ trivial).repeated n c' h
  rw [hrun] at hrepeated
  obtain ⟨hout, hpos⟩ := hrepeated hn
  exact ⟨(p c').2, Prod.ext hout rfl, (hp c' fun _ _ ↦ trivial).toks_eq, hpos⟩

theorem of_rest (hp : Local good (fun _ ↦ True) p) (hrun : p c = (.ok a, d)) (h : c.rest = c'.rest)
    (hlast : c'.toks.getLast? = c.toks.getLast?) : ∃ d', p c' = (.ok a, d') ∧ d'.rest = d.rest := by
  obtain ⟨htoks, hpos⟩ := hp.moved hrun
  obtain ⟨d', hrun', htoks', hpos'⟩ := hp.of_agree hrun (.of_rest h hlast (d.pos + 2)) (by omega)
  refine ⟨d', hrun', ?_⟩
  have hd : d.rest = c.rest.drop (d.pos - c.pos) := by
    rw [Cursor.rest, Cursor.rest, List.drop_drop, htoks, Nat.add_sub_cancel' hpos]
  have hd' : d'.rest = c'.rest.drop (d.pos - c.pos) := by
    rw [Cursor.rest, Cursor.rest, List.drop_drop, htoks',
      show c'.pos + (d.pos - c.pos) = d'.pos by omega]
  rw [hd, hd', h]

end Local

end Zeroxos
