import Mathlib.Algebra.GroupWithZero.Nat
import Mathlib.Algebra.Order.BigOperators.Group.List
import Mathlib.Algebra.Order.Group.Nat
import Zeroxos.Library.Cursor

/-!
# Runs of a parser with a cursor

Three contracts about what a parser does with the tokens, with a rule in each of them for every way
to put parsers together.

## Three contracts

`Reads` is a big-step rule for one text: in front of tokens of certain kinds the parser answers,
with a certain value, and leaves certain tokens. `Pays` is a bound for every text: the parser makes
no more of something than there are tokens for it. `Gives` is about what the parser answers if it
does: something made of good tokens alone.

The first is what a text is parsed by, and needs fuel; the other two hold whatever the fuel, and say
nothing of whether the parser answers.
-/

namespace Zeroxos

variable {τ κ ε α β : Type}

/-- The tokens from the cursor on. -/
def Cursor.rest (c : Cursor τ) : List τ := c.toks.drop c.pos

/-- In front of tokens of the kinds `l` the parser answers `a` and leaves tokens of the kinds `l'`.
-/
def Reads (kind : τ → κ) (p : Parse τ ε α) (l : List κ) (a : α) (l' : List κ) : Prop :=
  ∀ c : Cursor τ, c.rest.map kind = l → ∃ c', p c = (.ok a, c') ∧ c'.rest.map kind = l'

theorem Cursor.exists_of_rest {kind : τ → κ} {c : Cursor τ} {k : κ} {l : List κ}
    (h : c.rest.map kind = k :: l) :
    ∃ t, c.toks[c.pos]? = some t ∧ kind t = k ∧ (c.toks.drop (c.pos + 1)).map kind = l := by
  obtain ⟨t, ts, hrest, hkind, htail⟩ := List.map_eq_cons_iff.mp h
  refine ⟨t, ?_, hkind, ?_⟩
  · rw [← List.head?_drop]
    exact congrArg List.head? hrest
  · rw [← List.tail_drop]
    exact (congrArg (fun l ↦ l.tail.map kind) hrest).trans htail

namespace Reads

variable {kind : τ → κ} {p : Parse τ ε α} {f : α → Parse τ ε β} {k : κ} {l l' l'' : List κ} {a : α}
  {b b' : β}

theorem pure (a : α) (l : List κ) : Reads kind (pure a : Parse τ ε α) l a l :=
  fun c h ↦ ⟨c, rfl, h⟩

theorem bind (hp : Reads kind p l a l') (hf : Reads kind (f a) l' b l'') :
    Reads kind (p >>= f) l b l'' := by
  intro c hc
  obtain ⟨c₁, hrun, hc₁⟩ := hp c hc
  rw [Parse.bind_ok hrun]
  exact hf c₁ hc₁

theorem bind_pure {g : α → β} (hp : Reads kind p l a l') :
    Reads kind (p >>= fun a ↦ Pure.pure (g a)) l (g a) l' := hp.bind (pure (g a) l')

theorem current_bind {f : τ → Parse τ ε β}
    (hf : ∀ t, kind t = k → Reads kind (f t) (k :: l) b l') :
    Reads kind (Parse.current >>= f) (k :: l) b l' := by
  intro c hc
  obtain ⟨t, hget, hkind, -⟩ := Cursor.exists_of_rest hc
  have hrun : (Parse.current : Parse τ ε τ) c = (.ok t, c.note (.look c.pos)) := by
    rw [Parse.current, hget]
  rw [Parse.bind_ok hrun]
  exact hf t hkind (c.note (.look c.pos)) hc

theorem next_bind {k' : κ} {f : τ → Parse τ ε β}
    (hf : ∀ t, kind t = k' → Reads kind (f t) (k :: k' :: l) b l') :
    Reads kind (Parse.lookahead 1 >>= f) (k :: k' :: l) b l' := by
  intro c hc
  obtain ⟨-, -, -, htail⟩ := Cursor.exists_of_rest hc
  obtain ⟨t, hget, hkind, -⟩ := Cursor.exists_of_rest (c := { c with pos := c.pos + 1 }) htail
  obtain ⟨last, hlast⟩ : ∃ last, c.toks.getLast? = some last := by
    rw [← Option.ne_none_iff_exists', Ne, List.getLast?_eq_none_iff]
    exact List.ne_nil_of_mem (List.mem_of_getElem? hget)
  have hrun : (Parse.lookahead 1 : Parse τ ε τ) c = (.ok t, c.note (.look c.pos)) := by
    rw [Parse.lookahead, hlast]
    dsimp only
    rw [hget, Option.getD_some]
  rw [Parse.bind_ok hrun]
  exact hf t hkind (c.note (.look c.pos)) hc

theorem advance : Reads kind (Parse.advance : Parse τ ε Unit) (k :: l) () l := by
  intro c hc
  obtain ⟨-, -, -, htail⟩ := Cursor.exists_of_rest hc
  exact ⟨_, rfl, htail⟩

theorem loop_exit {body : β → Parse τ ε (Round β)} {fuel : ℕ}
    (h : Reads kind (body b) l (.exit b') l') :
    Reads kind (Parse.loop body (fuel + 1) b) l b' l' := by
  intro c hc
  obtain ⟨c', hrun, hc'⟩ := h c hc
  have hstart : (Parse.position : Parse τ ε ℕ) c = (.ok c.pos, c) := rfl
  refine ⟨c', ?_, hc'⟩
  rw [Parse.loop, Parse.bind_ok hstart, Parse.bind_ok hrun]
  rfl

theorem loop_again {body : β → Parse τ ε (Round β)} {fuel : ℕ} {r : β}
    (h : Reads kind (body b) l (.again b') l')
    (hrest : Reads kind (Parse.loop body fuel b') l' r l'') :
    Reads kind (Parse.loop body (fuel + 1) b) l r l'' := by
  intro c hc
  obtain ⟨c₁, hrun, hc₁⟩ := h c hc
  have hstart : (Parse.position : Parse τ ε ℕ) c = (.ok c.pos, c) := rfl
  obtain ⟨c', hrun', hc'⟩ := hrest (c₁.note (.round c.pos c₁.pos)) hc₁
  refine ⟨c', ?_, hc'⟩
  rw [Parse.loop, Parse.bind_ok hstart, Parse.bind_ok hrun]
  exact hrun'

section While

variable {cond : Parse τ ε Bool} {body : β → Parse τ ε β} {fuel : ℕ} {r : β}

theorem while_exit (h : Reads kind cond l false l') :
    Reads kind (Parse.whileLoop cond body (fuel + 1) b) l b l' :=
  loop_exit (h.bind (pure _ l'))

theorem while_again {l₁ : List κ} (hcond : Reads kind cond l true l₁)
    (hbody : Reads kind (body b) l₁ b' l')
    (hrest : Reads kind (Parse.whileLoop cond body fuel b') l' r l'') :
    Reads kind (Parse.whileLoop cond body (fuel + 1) b) l r l'' :=
  loop_again (hcond.bind hbody.bind_pure) hrest

end While

end Reads

/-! ## What there are tokens for -/

/-- What the tokens from the cursor on are worth. -/
def Cursor.worth (cost : τ → ℕ) (c : Cursor τ) : ℕ := (c.rest.map cost).sum

/-- With `k` in hand the parser makes an answer that is worth no more than that and the tokens that
it passes. -/
def Pays (cost : τ → ℕ) (k : ℕ) (p : Parse τ ε α) (w : α → ℕ) : Prop :=
  ∀ c a c', p c = (.ok a, c') → w a + c'.worth cost ≤ k + c.worth cost

namespace Pays

variable {cost : τ → ℕ} {k k' : ℕ} {p : Parse τ ε α} {f : α → Parse τ ε β} {w : α → ℕ} {w' : β → ℕ}

theorem mono {v : α → ℕ} (h : Pays cost k p w) (hk : k ≤ k') (hw : ∀ a, v a ≤ w a) :
    Pays cost k' p v := fun c a c' hrun ↦
  (Nat.add_le_add_right (hw a) _).trans ((h c a c' hrun).trans (Nat.add_le_add_right hk _))

theorem pure {a : α} (h : w a ≤ k) : Pays cost k (pure a : Parse τ ε α) w := by
  intro c a' c' hrun
  cases hrun
  exact Nat.add_le_add_right h _

theorem fail (e : ε) : Pays cost k (Parse.fail e : Parse τ ε α) w := by
  intro c a c' hrun
  cases hrun

theorem outOfFuel : Pays cost k (Parse.outOfFuel : Parse τ ε α) w := by
  intro c a c' hrun
  cases hrun

theorem bind (hp : Pays cost k p w) (hf : ∀ a, Pays cost (w a) (f a) w') :
    Pays cost k (p >>= f) w' := by
  intro c b c' hrun
  obtain ⟨a, c₁, hfirst, hrest⟩ := Parse.exists_of_bind_ok hrun
  exact (hf a c₁ b c' hrest).trans (hp c a c₁ hfirst)

theorem current : Pays cost k (Parse.current : Parse τ ε τ) fun _ ↦ k := by
  intro c t c' hrun
  rw [Parse.current] at hrun
  split at hrun <;> cases hrun
  exact le_rfl

theorem lookahead (off : ℕ) : Pays cost k (Parse.lookahead off : Parse τ ε τ) fun _ ↦ k := by
  intro c t c' hrun
  rw [Parse.lookahead] at hrun
  split at hrun <;> cases hrun
  exact le_rfl

theorem advance : Pays cost k (Parse.advance : Parse τ ε Unit) fun _ ↦ k := by
  intro c a c' hrun
  cases hrun
  refine Nat.add_le_add_left ?_ k
  have hle : (c.toks.drop (c.pos + 1)).Sublist (c.toks.drop c.pos) :=
    (List.drop_suffix_drop_left c.toks (Nat.le_succ c.pos)).sublist
  exact (hle.map cost).sum_le_sum fun _ _ ↦ Nat.zero_le _

theorem of_pass (h : ∀ c a c', p c = (.ok a, c') → ∃ t, c.toks[c.pos]? = some t ∧
      c'.toks = c.toks ∧ c'.pos = c.pos + 1 ∧ w a ≤ k + cost t) : Pays cost k p w := by
  intro c a c' hrun
  obtain ⟨t, hget, htoks, hpos, hw⟩ := h c a c' hrun
  have hworth : c.worth cost = cost t + c'.worth cost := by
    obtain ⟨hlt, rfl⟩ := List.getElem?_eq_some_iff.mp hget
    rw [Cursor.worth, Cursor.worth, Cursor.rest, Cursor.rest, htoks, hpos,
      List.drop_eq_getElem_cons hlt, List.map_cons, List.sum_cons]
  rw [hworth, ← Nat.add_assoc]
  exact Nat.add_le_add_right hw _

/-- **A loop** none of whose rounds makes more than it has tokens for. -/
theorem loop {body : β → Parse τ ε (Round β)}
    (hbody : ∀ b, Pays cost (w' b) (body b) fun r ↦ w' r.state) (fuel : ℕ) (b : β) :
    Pays cost (w' b) (Parse.loop body fuel b) w' := by
  induction fuel generalizing b with
  | zero => exact outOfFuel
  | succ fuel ih =>
    intro c r c' hrun
    obtain ⟨start, c₁, hstart, hround⟩ := Parse.exists_of_bind_ok hrun
    cases hstart
    obtain ⟨s, c₂, hres, hrest⟩ := Parse.exists_of_bind_ok hround
    refine le_trans ?_ (hbody b c s c₂ hres)
    cases s with
    | exit b =>
      cases hrest
      exact le_rfl
    | last b =>
      cases hrest
      exact le_rfl
    | again b => exact ih b (c₂.note (.round c.pos c₂.pos)) r c' hrest

theorem whileLoop {cond : Parse τ ε Bool} {body : β → Parse τ ε β} {v : β → ℕ}
    (hcond : ∀ k, Pays cost k cond fun _ ↦ k) (hbody : ∀ b, Pays cost (v b) (body b) v) (fuel : ℕ)
    (b : β) : Pays cost (v b) (Parse.whileLoop cond body fuel b) v := by
  refine loop (fun b ↦ (hcond _).bind fun more ↦ ?_) fuel b
  cases more with
  | false => exact pure le_rfl
  | true => exact (hbody b).bind fun b ↦ pure le_rfl

end Pays

/-! ## What is made of good tokens -/

/-- Out of good tokens, the one under the cursor being as `pre` says, the parser makes what `post`
says, and the tokens stay what they are. -/
def Gives (good pre : τ → Prop) (p : Parse τ ε α) (post : α → Prop) : Prop :=
  ∀ c a c', p c = (.ok a, c') → (∀ t ∈ c.toks, good t) → (∀ t ∈ c.toks[c.pos]?, pre t) →
    c'.toks = c.toks ∧ post a

namespace Gives

variable {good pre : τ → Prop} {p q : Parse τ ε α} {f : α → Parse τ ε β} {post : α → Prop}
  {post' : β → Prop} {a : α}

theorem imp {post₁ : α → Prop} (h : Gives good pre p post) (himp : ∀ a, post a → post₁ a) :
    Gives good pre p post₁ := fun c a c' hrun hgood hpre ↦
  (h c a c' hrun hgood hpre).imp_right (himp a)

theorem weaken (h : Gives good (fun _ ↦ True) p post) : Gives good pre p post :=
  fun c a c' hrun hgood _ ↦ h c a c' hrun hgood fun _ _ ↦ trivial

theorem pure (h : post a) : Gives good pre (pure a : Parse τ ε α) post := by
  intro c a' c' hrun _ _
  cases hrun
  exact ⟨rfl, h⟩

theorem fail (e : ε) : Gives good pre (Parse.fail e : Parse τ ε α) post := by
  intro c a c' hrun
  cases hrun

theorem outOfFuel : Gives good pre (Parse.outOfFuel : Parse τ ε α) post := by
  intro c a c' hrun
  cases hrun

theorem ite {P : Prop} [Decidable P] (hp : P → Gives good pre p post)
    (hq : ¬P → Gives good pre q post) : Gives good pre (if P then p else q) post := by
  split_ifs with h
  · exact hp h
  · exact hq h

theorem bind (hp : Gives good pre p post)
    (hf : ∀ a, post a → Gives good (fun _ ↦ True) (f a) post') :
    Gives good pre (p >>= f) post' := by
  intro c b c' hrun hgood hpre
  obtain ⟨a, c₁, hfirst, hrest⟩ := Parse.exists_of_bind_ok hrun
  obtain ⟨htoks, ha⟩ := hp c a c₁ hfirst hgood hpre
  obtain ⟨htoks', hb⟩ := hf a ha c₁ b c' hrest (htoks.symm ▸ hgood) fun _ _ ↦ trivial
  exact ⟨htoks'.trans htoks, hb⟩

theorem bind_pure {g : α → β} (h : Gives good pre p fun a ↦ post' (g a)) :
    Gives good pre (p >>= fun a ↦ Pure.pure (g a)) post' := h.bind fun _ ha ↦ pure ha

theorem current_bind {f : τ → Parse τ ε β}
    (hf : ∀ t, good t → pre t → Gives good (fun t' ↦ t' = t) (f t) post') :
    Gives good pre (Parse.current >>= f) post' := by
  intro c b c' hrun hgood hpre
  obtain ⟨t, c₁, hcur, hrest⟩ := Parse.exists_of_bind_ok hrun
  rw [Parse.current] at hcur
  split at hcur <;> cases hcur
  rename_i hget
  refine hf t (hgood t (List.mem_of_getElem? hget)) (hpre t hget) (c.note (.look c.pos)) b c' hrest
    hgood fun t' ht' ↦ ?_
  exact Option.some.inj (ht'.symm.trans hget)

theorem lookahead_bind {off : ℕ} {f : τ → Parse τ ε β} (hf : ∀ t, Gives good pre (f t) post') :
    Gives good pre (Parse.lookahead off >>= f) post' := by
  intro c b c' hrun hgood hpre
  obtain ⟨t, c₁, hlook, hrest⟩ := Parse.exists_of_bind_ok hrun
  rw [Parse.lookahead] at hlook
  split at hlook <;> cases hlook
  exact hf _ (c.note (.look c.pos)) b c' hrest hgood hpre

theorem advance : Gives good pre (Parse.advance : Parse τ ε Unit) fun _ ↦ True := by
  intro c a c' hrun _ _
  cases hrun
  exact ⟨rfl, trivial⟩

/-- An error leaves the tokens alone as well. -/
theorem attempt (h : ∀ c, (p c).2.toks = c.toks) :
    Gives good pre (Parse.attempt p) fun _ ↦ True := by
  intro c o c' hrun _ _
  have htoks := h c
  rw [Parse.attempt] at hrun
  split at hrun
  all_goals
    rename_i hres
    rw [hres] at htoks
    cases hrun
    try exact ⟨htoks, trivial⟩

/-- **A loop** keeps what each of its rounds keeps. -/
theorem loop {body : β → Parse τ ε (Round β)}
    (hbody : ∀ b, post' b → Gives good (fun _ ↦ True) (body b) fun r ↦ post' r.state) (fuel : ℕ)
    {b : β} (hb : post' b) : Gives good pre (Parse.loop body fuel b) post' := by
  refine weaken ?_
  induction fuel generalizing b with
  | zero => exact outOfFuel
  | succ fuel ih =>
    intro c r c' hrun hgood hpre
    obtain ⟨start, c₁, hstart, hround⟩ := Parse.exists_of_bind_ok hrun
    cases hstart
    obtain ⟨s, c₂, hres, hrest⟩ := Parse.exists_of_bind_ok hround
    obtain ⟨htoks, hs⟩ := hbody b hb c s c₂ hres hgood hpre
    cases s with
    | exit b =>
      cases hrest
      exact ⟨htoks, hs⟩
    | last b =>
      cases hrest
      exact ⟨htoks, hs⟩
    | again b =>
      have hgood' : ∀ t ∈ c₂.toks, good t := htoks.symm ▸ hgood
      obtain ⟨htoks', hr⟩ :=
        ih hs (c₂.note (.round c.pos c₂.pos)) r c' hrest hgood' fun _ _ ↦ trivial
      exact ⟨htoks'.trans htoks, hr⟩

theorem whileLoop {cond : Parse τ ε Bool} {body : β → Parse τ ε β}
    (hcond : Gives good (fun _ ↦ True) cond fun _ ↦ True)
    (hbody : ∀ b, post' b → Gives good (fun _ ↦ True) (body b) post') (fuel : ℕ) {b : β}
    (hb : post' b) : Gives good pre (Parse.whileLoop cond body fuel b) post' := by
  refine loop (fun b hb ↦ hcond.bind fun more _ ↦ ?_) fuel hb
  cases more with
  | false => exact pure hb
  | true => exact (hbody b hb).bind fun b hb ↦ pure hb

end Gives

end Zeroxos
