import Zeroxos.Agex.ParserLocal
import Zeroxos.Agex.ParserNames

/-!
# Functions that cannot be written

The syntax tree has asynchronous functions, methods without a body and returns without a value in
front of a semicolon, and the code generator and the look-ahead of the parser are made for them. No
path through the parser consumes the tokens: `parse_decl` calls `parse_fn` for `async` as for `fn`,
`parse_fn` insists on a body, and `parse_return` leaves the semicolon to a statement that cannot
begin with one.
-/

namespace Zeroxos

namespace Agex

open Parse

variable {α β : Type} {fuel : ℕ} {ty next : TokenType} {p q : P α} {t : Token} {e : ParseError}

/-! ## `async` -/

/-- In front of the token the parser reports the error. -/
def RefusedAt (t : Token) (e : ParseError) (p : P α) : Prop :=
  ∀ c : Cursor Token, c.toks[c.pos]? = some t → (p c).1 = .err e

namespace RefusedAt

theorem bind {f : α → P β} (h : RefusedAt t e p) : RefusedAt t e (p >>= f) := fun c hget ↦
  congrArg Prod.fst (bind_err (Prod.ext (h c hget) rfl))

theorem cur_bind {f : Token → P α} (h : RefusedAt t e (f t)) : RefusedAt t e (cur >>= f) := by
  intro c hget
  have hcur : cur c = (.ok t, c.note (.look c.pos)) := by
    rw [cur, current, hget]
  rw [bind_ok hcur]
  exact h _ hget

theorem isAt_bind {f : Bool → P α} (h : RefusedAt t e (f (decide (t.ty = ty)))) :
    RefusedAt t e (isAt ty >>= f) := by
  rw [isAt, bind_assoc]
  exact cur_bind h

theorem ifAt_other (hty : t.ty ≠ ty) (h : RefusedAt t e q) : RefusedAt t e (ifAt ty p q) :=
  isAt_bind (by rwa [decide_eq_false hty])

theorem ifAt_same (h : RefusedAt t e p) : RefusedAt t e (ifAt t.ty p q) :=
  isAt_bind (by rwa [decide_eq_true rfl])

theorem eat (hty : t.ty ≠ ty) :
    RefusedAt t (unexpected ("expected " ++ ty.debug) t) (eat ty) :=
  isAt_bind (by
    rw [decide_eq_false hty]
    exact cur_bind fun _ _ ↦ rfl)

end RefusedAt

/-- `async` is refused: the parser expects `fn` in its place. -/
theorem parseDecl_async (hty : t.ty = .asyncKw) :
    RefusedAt t (unexpected "expected Fn" t) (parseDecl fuel) := by
  have hfn : RefusedAt t (unexpected "expected Fn" t) (parseFn fuel false false) := by
    have hne : t.ty ≠ .fnKw := by
      rw [hty]
      decide
    rw [parseFn, if_neg Bool.false_ne_true, pure_bind]
    exact RefusedAt.bind (RefusedAt.eat hne)
  refine RefusedAt.ifAt_other (by rw [hty]; decide) <| .ifAt_other (by rw [hty]; decide) ?_
  rw [← hty]
  exact .ifAt_same hfn.bind

/-! ## Methods without a body -/

/-- What the parser answers is so. -/
def Answers (p : P α) (post : α → Prop) : Prop := ∀ c a c', p c = (.ok a, c') → post a

namespace Answers

variable {post : α → Prop} {post' : β → Prop}

theorem pure {a : α} (h : post a) : Answers (pure a : P α) post := by
  intro c a' c' hrun
  cases hrun
  exact h

theorem fail (e : ParseError) : Answers (fail e : P α) post := by
  intro c a c' hrun
  cases hrun

theorem bind {f : α → P β} (hp : Answers p post) (hf : ∀ a, post a → Answers (f a) post') :
    Answers (p >>= f) post' := by
  intro c b c' hrun
  obtain ⟨a, c₁, hfirst, hrest⟩ := exists_of_bind_ok hrun
  exact hf a (hp c a c₁ hfirst) c₁ b c' hrest

theorem true (p : P α) : Answers p fun _ ↦ True := fun _ _ _ _ ↦ trivial

theorem after {f : α → P β} (hf : ∀ a, Answers (f a) post') : Answers (p >>= f) post' :=
  (true p).bind fun a _ ↦ hf a

theorem ifAt (hp : Answers p post) (hq : Answers q post) : Answers (ifAt ty p q) post := by
  refine after fun b ↦ ?_
  cases b with
  | true => exact hp
  | false => exact hq

theorem loop {body : β → P (Round β)}
    (hbody : ∀ b, post' b → Answers (body b) fun r ↦ post' r.state) (fuel : ℕ) {b : β}
    (hb : post' b) : Answers (loop body fuel b) post' := by
  induction fuel generalizing b with
  | zero =>
    intro c a c' hrun
    cases hrun
  | succ fuel ih =>
    refine after fun start ↦ (hbody b hb).bind fun r hr ↦ ?_
    cases r with
    | exit b => exact pure hr
    | again b => exact after fun _ ↦ ih hr
    | last b => exact after fun _ ↦ pure hr

theorem whileNotAt {close : TokenType} (h : Answers p post) :
    Answers (whileNotAt close p fuel) fun l ↦ ∀ a ∈ l, post a := by
  refine loop (fun l hl ↦ after fun more ↦ ?_) fuel fun _ h ↦ nomatch h
  cases more with
  | false => exact pure hl
  | true =>
    have hround : Answers (do return l ++ [← p]) fun l ↦ ∀ a ∈ l, post a := h.bind fun a ha ↦
      pure (List.forall_mem_append.mpr ⟨hl, List.forall_mem_singleton.mpr ha⟩)
    exact hround.bind fun l hl ↦ pure hl

end Answers

/-- A function has a body, of one form or the other. -/
def FnDecl.HasBody (f : FnDecl) : Prop := f.body.isSome ∨ f.exprBody.isSome

theorem parseFn_hasBody (isAsync isUnsafe : Bool) :
    Answers (parseFn fuel isAsync isUnsafe) FnDecl.HasBody := by
  have hexpr : Answers (parseExprBody fuel) fun b ↦ b.1.isSome ∨ b.2.isSome :=
    .after fun _ ↦ .after fun body ↦ .after fun _ ↦ .pure (.inr rfl)
  have hbody : Answers (parseFnBody fuel) fun b ↦ b.1.isSome ∨ b.2.isSome := by
    refine .ifAt hexpr <| .ifAt hexpr <| .ifAt ?_ ?_
    · exact .after fun body ↦ .pure (.inl rfl)
    · exact .after fun _ ↦ .fail _
  exact .after fun _ ↦ .after fun _ ↦ .after fun _ ↦ .after fun _ ↦ .after fun _ ↦
    hbody.bind fun _ h ↦ .pure h

theorem parseInterface_hasBody :
    Answers (parseInterface fuel) fun i ↦ ∀ m ∈ i.methods, m.HasBody := by
  have hmethods : Answers (parseMethods fuel) fun methods ↦ ∀ m ∈ methods, m.HasBody :=
    .after fun _ ↦ (Answers.whileNotAt (parseFn_hasBody _ _)).bind fun _ h ↦ .after fun _ ↦ .pure h
  exact .after fun _ ↦ .after fun _ ↦ hmethods.bind fun _ h ↦ .pure h

/-! ## `return ;` -/

/-- No block that is accepted ends with a semicolon. -/
theorem parseStmts_semicolon {depth : ℕ} {c c' : Cursor Token} {stmts : List Stmt}
    {ts post : List Token} {semi : Token} (hrest : c.rest = ts ++ semi :: post)
    (hsemi : semi.ty = .semicolon)
    (hrun : parseStmts (parseStmt depth) fuel c = (.ok stmts, c')) : c'.rest ≠ post := by
  rintro rfl
  have hsplit : c.rest = (ts ++ [semi]) ++ c'.rest := by
    rw [hrest, List.append_assoc, List.singleton_append]
  have hmem : semi ∈ ts ++ [semi] := List.mem_append_right _ (List.mem_singleton_self semi)
  exact (parseStmts_clean parseStmt_clean).forall_passed hrun hsplit semi hmem hsemi

/-! ## What cannot be written -/

/-- **None of the three forms can be written**: a declaration that begins with `async` is refused,
every method of an interface has a body, and no block that is accepted ends with a semicolon. -/
theorem unwritable_forms (fuel depth : ℕ) (c : Cursor Token) :
    (∀ t, c.toks[c.pos]? = some t → t.ty = .asyncKw →
      (parseDecl fuel c).1 = .err (unexpected "expected Fn" t)) ∧
    (∀ i c', parseInterface fuel c = (.ok i, c') → ∀ m ∈ i.methods, m.HasBody) ∧
    ∀ ts semi post, c.rest = ts ++ semi :: post → semi.ty = .semicolon →
      ∀ stmts c', parseStmts (parseStmt depth) fuel c = (.ok stmts, c') → c'.rest ≠ post :=
  ⟨fun _ hget hty ↦ parseDecl_async hty c hget, parseInterface_hasBody c,
    fun _ _ _ hrest hsemi _ _ hrun ↦ parseStmts_semicolon hrest hsemi hrun⟩

/-- In front of a function that begins with `async`, in the text of `constFnTokens`. -/
theorem unwritable_forms_asyncFn :
    (parseDecl 8 (newParser (⟨.asyncKw, "async", 1, 1⟩ :: constFnTokens))).1
      = .err (unexpected "expected Fn" ⟨.asyncKw, "async", 1, 1⟩) :=
  (unwritable_forms 8 8 (newParser (⟨.asyncKw, "async", 1, 1⟩ :: constFnTokens))).1 _ rfl rfl

/-- Whether the answer is a certain error. -/
def refusedWith (e : ParseError) : Outcome ParseError Program → Bool
  | .err e' => e' = e
  | _ => false

theorem err_of_refusedWith {o : Outcome ParseError Program} (h : refusedWith e o = true) :
    o = .err e := by
  cases o with
  | err e' => rw [of_decide_eq_true h]
  | _ => cases h

/-- **The three forms are refused**, where the same without `async`, with a body and without the
semicolon is accepted. -/
theorem forms_refused :
    (∃ prog, parse 8 "fn f() => 1" = .ok prog) ∧
      parse 8 "async fn f() => 1" = .err (.unexpected 1 1 "expected Fn" "Async 'async'") ∧
    (∃ prog, parse 16 "interface I \x7b fn m() -> Int \x7b \x7d \x7d" = .ok prog) ∧
      parse 16 "interface I \x7b fn m() -> Int \x7d"
        = .err (.unexpected 1 29 "expected function body or =>" "RBrace '\x7d'") ∧
    (∃ prog, parse 16 "fn f() \x7b return \x7d" = .ok prog) ∧
      parse 16 "fn f() \x7b return ; \x7d"
        = .err (.unexpected 1 17 "unexpected token in expression" "Semicolon ';'") := by
  have haccepted : ∀ {fuel src}, parsedAs (fun _ ↦ true) (parse fuel src) = true →
      ∃ prog, parse fuel src = .ok prog := by
    intro fuel src h
    obtain ⟨prog, hprog, -⟩ := exists_of_parsedAs h
    exact ⟨prog, hprog⟩
  exact ⟨haccepted (by decide +kernel), err_of_refusedWith (by decide +kernel),
    haccepted (by decide +kernel), err_of_refusedWith (by decide +kernel),
    haccepted (by decide +kernel), err_of_refusedWith (by decide +kernel)⟩

end Agex

end Zeroxos
