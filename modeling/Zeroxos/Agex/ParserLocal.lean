import Zeroxos.Agex.ParserTotal
import Zeroxos.Library.CursorLocal

/-!
# What the agex parser looks at

Every function of the parser keeps the contract of `Local`: it looks at the token under the cursor
and the one behind it, so that what it does is a matter of the tokens to come. Those of types,
expressions and statements pass no semicolon either; the one place in the parser that does is behind
a function that is given as an expression.
-/

namespace Zeroxos

namespace Agex

open Parse

/-- The parser looks no further than one token behind the cursor. -/
abbrev Near {α : Type} (p : P α) : Prop := Local (fun _ ↦ True) (fun _ ↦ True) p

/-- And it passes no semicolon. -/
abbrev Clean {α : Type} (p : P α) : Prop := Local (fun t ↦ t.ty ≠ .semicolon) (fun _ ↦ True) p

variable {α β : Type} {fuel : ℕ} {good pre : Token → Prop} {ty next : TokenType} {p q : P α}

/-! ## The cursor -/

theorem isAt_local {f : Bool → P α} (htrue : Local good (fun t ↦ pre t ∧ t.ty = ty) (f true))
    (hfalse : Local good (fun t ↦ pre t ∧ t.ty ≠ ty) (f false)) :
    Local good pre (isAt ty >>= f) := by
  rw [isAt, bind_assoc]
  refine Local.current_bind fun t ht ↦ ?_
  rw [pure_bind]
  by_cases hty : t.ty = ty
  · rw [decide_eq_true hty]
    exact htrue.mono (fun _ ↦ id) fun t' h ↦ h ▸ ⟨ht, hty⟩
  · rw [decide_eq_false hty]
    exact hfalse.mono (fun _ ↦ id) fun t' h ↦ h ▸ ⟨ht, hty⟩

theorem isAt_local' {f : Bool → P α} (h : ∀ b, Local good (fun _ ↦ True) (f b)) :
    Local good (fun _ ↦ True) (isAt ty >>= f) := isAt_local (h true).of_true (h false).of_true

theorem ifAt_local (hp : Local good (fun _ ↦ True) p) (hq : Local good (fun _ ↦ True) q) :
    Local good (fun _ ↦ True) (ifAt ty p q) := isAt_local hp.of_true hq.of_true

theorem ifAtThen_local (hp : Local good (fun _ ↦ True) p) (hq : Local good (fun _ ↦ True) q) :
    Local good (fun _ ↦ True) (ifAtThen ty next p q) := by
  refine isAt_local (Local.lookahead_bind fun t ↦ ?_) hq.of_true
  exact .ite (fun _ ↦ hp.of_true) fun _ ↦ hq.of_true

theorem eat_local (hty : ∀ t : Token, t.ty = ty → good t) : Local good pre (eat ty) := by
  refine isAt_local (Local.current_bind fun t ht ↦ ?_) (Local.current_bind fun t _ ↦ .fail _)
  exact (Local.advance fun t' h ↦ h ▸ hty t ht.2).bind fun _ ↦ .pure t

theorem eatCur_local (h : ∀ t, pre t → good t) : Local good pre eatCur := by
  refine Local.current_bind fun t ht ↦ isAt_local (Local.current_bind fun t' ht' ↦ ?_)
    (Local.current_bind fun t _ ↦ .fail _)
  refine (Local.advance fun t'' h'' ↦ ?_).bind fun _ ↦ .pure t'
  rw [h'', ht'.1]
  exact h t ht

theorem maybe_local (hty : ∀ t : Token, t.ty = ty → good t) :
    Local good (fun _ ↦ True) (maybe ty) := by
  refine isAt_local (Local.current_bind fun t ht ↦ ?_) (.pure none)
  exact (Local.advance fun t' h ↦ h ▸ hty t ht.2).bind fun _ ↦ .pure (some t)

theorem ifMaybe_local (hty : ∀ t : Token, t.ty = ty → good t) (hp : Local good (fun _ ↦ True) p)
    (hq : Local good (fun _ ↦ True) q) : Local good (fun _ ↦ True) (ifMaybe ty p q) :=
  (maybe_local hty).bind fun _ ↦ .ite (fun _ ↦ hp) fun _ ↦ hq

theorem whileMaybe_local (hty : ∀ t : Token, t.ty = ty → good t) {body : β → P β}
    (hbody : ∀ b, Local good (fun _ ↦ True) (body b)) (b : β) :
    Local good (fun _ ↦ True) (whileLoop (do return (← maybe ty).isSome) body fuel b) :=
  .whileLoop (maybe_local hty).bind_pure hbody fuel b

theorem items_local {close : TokenType} {item : P α} (hcomma : ∀ t : Token, t.ty = .comma → good t)
    (hitem : Local good (fun _ ↦ True) item) :
    Local good (fun _ ↦ True) (items close item fuel) :=
  ifAt_local (.pure []) (hitem.bind fun a ↦ whileMaybe_local hcomma (fun _ ↦ hitem.bind_pure) [a])

theorem whileNotAt_local {close : TokenType} {item : P α}
    (hitem : Local good (fun _ ↦ True) item) :
    Local good (fun _ ↦ True) (whileNotAt close item fuel) := by
  have hcond : Local good (fun _ ↦ True) (do return !(← isAt close)) :=
    isAt_local (.pure _) (.pure _)
  exact .whileLoop hcond (fun _ ↦ hitem.bind_pure) fuel []

theorem Clean.near (h : Clean p) : Near p := h.mono (fun _ _ ↦ trivial) fun _ ↦ id

theorem eat_clean (hty : ty ≠ .semicolon) : Clean (eat ty) := eat_local fun _ h ↦ h ▸ hty

theorem eat_near : Near (eat ty) := eat_local fun _ _ ↦ trivial

theorem ifMaybe_clean (hty : ty ≠ .semicolon) (hp : Clean p) (hq : Clean q) :
    Clean (ifMaybe ty p q) := ifMaybe_local (fun _ h ↦ h ▸ hty) hp hq

theorem items_clean {close : TokenType} {item : P α} (hitem : Clean item) :
    Clean (items close item fuel) := by
  have hcomma : TokenType.comma ≠ .semicolon := by decide
  exact items_local (fun t h ↦ h ▸ hcomma) hitem

/-! ## Types -/

theorem parseType_clean : Clean (parseType fuel) := by
  induction fuel with
  | zero => exact .outOfFuel
  | succ fuel ih =>
    rw [parseType]
    refine .bind (ifAt_local ?_ ?_) fun t ↦ ifMaybe_clean (by decide) (.pure _) (.pure _)
    · exact (eat_clean (by decide)).bind fun _ ↦ ih.bind_pure
    · refine (eat_clean (by decide)).bind fun name ↦ ifMaybe_clean (by decide) ?_ (.pure _)
      exact (items_clean ih).bind fun args ↦ (eat_clean (by decide)).bind_pure

/-! ## Expressions -/

section Expr

variable {parseExpr : P Expr}

theorem parseArgs_clean (hexpr : Clean parseExpr) : Clean (parseArgs parseExpr fuel) :=
  (eat_clean (by decide)).bind fun _ ↦ (items_clean hexpr).bind fun _ ↦
    (eat_clean (by decide)).bind_pure

theorem parseNamed_clean (hexpr : Clean parseExpr) (isPrint : Bool) (value : String) :
    Clean (parseNamed parseExpr fuel isPrint value) := by
  have hargs : Clean (parseArgs parseExpr fuel) := parseArgs_clean hexpr
  refine .ite (fun _ ↦ .pure _) fun _ ↦ .ite (fun _ ↦ .pure _) fun _ ↦ .ite (fun _ ↦ .pure _)
    fun _ ↦ isAt_local' fun atParen ↦ ?_
  exact .ite (fun _ ↦ hargs.bind_pure) fun _ ↦
    .ite (fun _ ↦ ifAt_local hargs.bind_pure (.pure _)) fun _ ↦ .pure _

theorem parseName_local {tok : Token} (htok : tok.ty ≠ .semicolon) (hexpr : Clean parseExpr) :
    Local (fun t ↦ t.ty ≠ .semicolon) (fun t ↦ t = tok) (parseName parseExpr fuel tok) := by
  have hrest : ∀ isPrint, Clean (parseNamed parseExpr fuel isPrint tok.value) :=
    fun isPrint ↦ parseNamed_clean hexpr isPrint tok.value
  have hcur : ∀ {b : Token → Prop} (t : Token), t = tok ∧ b t → t.ty ≠ .semicolon := by
    rintro b t ⟨rfl, -⟩
    exact htok
  exact isAt_local ((eatCur_local hcur).bind fun _ ↦ hrest true)
    ((eatCur_local hcur).bind fun _ ↦ hrest false)

theorem parsePrimary_clean (hexpr : Clean parseExpr) : Clean (parsePrimary parseExpr fuel) := by
  refine Local.current_bind fun tok _ ↦ ?_
  split
  · exact (eat_clean (by decide)).bind_pure.of_true
  · exact (eat_clean (by decide)).bind_pure.of_true
  · exact (eat_clean (by decide)).bind_pure.of_true
  · exact (eat_clean (by decide)).bind_pure.of_true
  · refine Local.of_true ((eat_clean (by decide)).bind fun _ ↦ hexpr.bind fun e ↦ ?_)
    exact (eat_clean (by decide)).bind_pure
  · rename_i hty
    exact parseName_local (by rw [hty]; decide) hexpr
  · rename_i hty
    exact parseName_local (by rw [hty]; decide) hexpr
  · rename_i hty
    exact parseName_local (by rw [hty]; decide) hexpr
  · exact .fail _

theorem postfixRound_clean (hexpr : Clean parseExpr) (expr : Expr) :
    Clean (postfixRound parseExpr fuel expr) := by
  have hargs : Clean (parseArgs parseExpr fuel) := parseArgs_clean hexpr
  refine ifAt_local ?_ (ifAtThen_local ?_ (ifAt_local hargs.bind_pure (.pure _)))
  · exact (eat_clean (by decide)).bind fun _ ↦ (eat_clean (by decide)).bind fun name ↦
      ifAt_local hargs.bind_pure (.pure _)
  · exact (eat_clean (by decide)).bind fun _ ↦ (eat_clean (by decide)).bind fun _ ↦
      (eat_clean (by decide)).bind fun name ↦ ifAt_local hargs.bind_pure (.pure _)

theorem parsePostfix_clean (hexpr : Clean parseExpr) : Clean (parsePostfix parseExpr fuel) :=
  (parsePrimary_clean hexpr).bind fun expr ↦ .loop (postfixRound_clean hexpr) fuel expr

theorem parseUnary_clean (hexpr : Clean parseExpr) (depth : ℕ) :
    Clean (parseUnary parseExpr fuel depth) := by
  induction depth with
  | zero => exact .outOfFuel
  | succ depth ih =>
    refine Local.current_bind fun t _ ↦ .ite (fun hop ↦ ?_) fun _ ↦ Local.of_true ?_
    · refine (eatCur_local fun t' h ↦ ?_).bind fun tok ↦ ih.bind_pure
      intro hty
      rw [← h, hty] at hop
      exact absurd hop (by decide)
    · exact ifAt_local ((eat_clean (by decide)).bind fun _ ↦ ih.bind_pure)
        (parsePostfix_clean hexpr)

/-- **A chain of operators**, none of which is a semicolon. -/
theorem operatorChain_clean {isOp : TokenType → Bool} {op : Token → String} {operand : P Expr}
    (hop : isOp .semicolon = false) (hoperand : Clean operand) :
    Clean (operatorChain fuel isOp op operand) := by
  refine hoperand.bind fun left ↦ .loop (fun left ↦ ?_) fuel left
  rw [bind_assoc]
  refine Local.current_bind fun t _ ↦ ?_
  rw [pure_bind]
  refine .ite (fun hcur ↦ ?_) fun _ ↦ .pure _
  refine Local.bind_pure (.bind (eatCur_local fun t' h hty ↦ ?_) fun tok ↦ hoperand.bind_pure)
  rw [← h, hty, hop] at hcur
  cases hcur

theorem parseMul_clean (hexpr : Clean parseExpr) : Clean (parseMul parseExpr fuel) :=
  operatorChain_clean rfl (parseUnary_clean hexpr fuel)

theorem parseAdd_clean (hexpr : Clean parseExpr) : Clean (parseAdd parseExpr fuel) :=
  operatorChain_clean rfl (parseMul_clean hexpr)

theorem parseIs_clean (hexpr : Clean parseExpr) : Clean (parseIs parseExpr fuel) := by
  refine (parseAdd_clean hexpr).bind fun left ↦ .whileLoop ?_ (fun left ↦ ?_) fuel left
  · exact ifAt_local (Local.current_bind fun t _ ↦ .pure _) (.pure _)
  · exact (eat_clean (by decide)).bind fun _ ↦ (eat_clean (by decide)).bind_pure

theorem parseCmp_clean (hexpr : Clean parseExpr) : Clean (parseCmp parseExpr fuel) :=
  operatorChain_clean rfl (parseIs_clean hexpr)

theorem parseEq_clean (hexpr : Clean parseExpr) : Clean (parseEq parseExpr fuel) :=
  operatorChain_clean rfl (parseCmp_clean hexpr)

theorem parseAnd_clean (hexpr : Clean parseExpr) : Clean (parseAnd parseExpr fuel) :=
  operatorChain_clean rfl (parseEq_clean hexpr)

theorem parseOr_clean (hexpr : Clean parseExpr) : Clean (parseOr parseExpr fuel) :=
  operatorChain_clean rfl (parseAnd_clean hexpr)

theorem parseElvis_clean (hexpr : Clean parseExpr) : Clean (parseElvis parseExpr fuel) := by
  refine (parseOr_clean hexpr).bind fun left ↦ .whileLoop ?_ (fun left ↦ ?_) fuel left
  · exact ifAtThen_local (.pure _) (.pure _)
  · exact (eat_clean (by decide)).bind fun _ ↦ (eat_clean (by decide)).bind fun _ ↦
      (parseOr_clean hexpr).bind_pure

end Expr

/-- **Expressions.** -/
theorem parseExpr_clean : Clean (parseExpr fuel) := by
  induction fuel with
  | zero => exact .outOfFuel
  | succ fuel ih => exact parseElvis_clean ih

/-! ## Statements -/

section Stmt

variable {parseStmt : P Stmt}

theorem parseStmts_clean (hstmt : Clean parseStmt) : Clean (parseStmts parseStmt fuel) := by
  have hcond : Clean (ifAt .rBrace (return false) (return !(← isAt .eof))) :=
    ifAt_local (.pure _) (isAt_local (.pure _) (.pure _))
  exact .whileLoop hcond (fun _ ↦ hstmt.bind_pure) fuel []

theorem parseBlock_clean (hstmt : Clean parseStmt) : Clean (parseBlock parseStmt fuel) :=
  (eat_clean (by decide)).bind fun _ ↦ (parseStmts_clean hstmt).bind fun _ ↦
    (eat_clean (by decide)).bind_pure

theorem ifAssign_clean : Clean (ifMaybe .assign (return some (← parseExpr fuel)) (return none)) :=
  ifMaybe_clean (by decide) parseExpr_clean.bind_pure (.pure _)

theorem parseBinding_clean {kw : TokenType} {mk : String → TypeNode → Option Expr → Stmt}
    (hkw : kw ≠ .semicolon) : Clean (parseBinding fuel kw mk) := by
  refine (eat_clean hkw).bind fun _ ↦ (eat_clean (by decide)).bind fun name ↦ ?_
  exact (ifMaybe_clean (by decide) parseType_clean (.pure _)).bind fun ty ↦ ifAssign_clean.bind_pure

theorem parseReturn_clean : Clean (parseReturn fuel) :=
  (eat_clean (by decide)).bind fun _ ↦ ifAt_local (.pure _) <| ifAt_local (.pure _) <|
    ifAt_local (.pure _) parseExpr_clean.bind_pure

theorem parseIf_clean (hstmt : Clean parseStmt) (depth : ℕ) :
    Clean (parseIf parseStmt fuel depth) := by
  induction depth with
  | zero => exact .outOfFuel
  | succ depth ih =>
    have hblock : Clean (parseBlock parseStmt fuel) := parseBlock_clean hstmt
    refine (eat_clean (by decide)).bind fun _ ↦ parseExpr_clean.bind fun cond ↦
      hblock.bind fun thenBody ↦ .bind (ifMaybe_clean (by decide) ?_ (.pure _)) fun els ↦ .pure _
    exact ifAt_local ih.bind_pure hblock.bind_pure

theorem parseFor_clean (hstmt : Clean parseStmt) : Clean (parseFor parseStmt fuel) :=
  (eat_clean (by decide)).bind fun _ ↦ (eat_clean (by decide)).bind fun _ ↦
    (eat_clean (by decide)).bind fun _ ↦ parseExpr_clean.bind fun _ ↦
      (parseBlock_clean hstmt).bind_pure

theorem parseBindings_clean : Clean (parseBindings fuel) := by
  refine ifMaybe_clean (by decide) ?_ (.pure _)
  exact (items_clean (eat_clean (by decide)).bind_pure).bind fun _ ↦
    (eat_clean (by decide)).bind_pure

theorem parsePattern_clean : Clean (parsePattern fuel) := by
  have hdot : TokenType.dot ≠ .semicolon := by decide
  refine ifAt_local ?_ (ifAt_local ((eat_clean (by decide)).bind fun _ ↦ .pure _) (.pure _))
  refine (eat_clean (by decide)).bind fun first ↦ ?_
  exact (whileMaybe_local (fun t h ↦ h ▸ hdot) (fun _ ↦ (eat_clean (by decide)).bind_pure) _).bind
    fun pattern ↦ parseBindings_clean.bind_pure

theorem parseCase_clean (hstmt : Clean parseStmt) : Clean (parseCase parseStmt fuel) := by
  refine parsePattern_clean.bind fun head ↦ (eat_clean (by decide)).bind fun _ ↦
    .bind (ifMaybe_clean (by decide) ?_ hstmt.bind_pure) fun body ↦ .pure _
  exact (parseStmts_clean hstmt).bind fun _ ↦ (eat_clean (by decide)).bind_pure

theorem parseMatch_clean (hstmt : Clean parseStmt) : Clean (parseMatch parseStmt fuel) :=
  (eat_clean (by decide)).bind fun _ ↦ parseExpr_clean.bind fun _ ↦
    (eat_clean (by decide)).bind fun _ ↦ (whileNotAt_local (parseCase_clean hstmt)).bind fun _ ↦
      (eat_clean (by decide)).bind_pure

theorem parsePrint_clean : Clean (parsePrint fuel) :=
  (eat_clean (by decide)).bind fun _ ↦ (parseArgs_clean parseExpr_clean).bind_pure

theorem parseUnsafe_clean (hstmt : Clean parseStmt) : Clean (parseUnsafe parseStmt fuel) :=
  (eat_clean (by decide)).bind fun _ ↦ (parseBlock_clean hstmt).bind_pure

theorem parseExprOrAssign_clean : Clean (parseExprOrAssign fuel) := by
  refine parseExpr_clean.bind fun expr ↦ Local.current_bind fun t _ ↦ ?_
  split
  · rename_i op hop
    refine (eatCur_local fun t' h hty ↦ ?_).bind fun _ ↦ parseExpr_clean.bind_pure
    rw [← h, hty] at hop
    cases hop
  · exact .pure _

end Stmt

/-- **Statements.** -/
theorem parseStmt_clean : Clean (parseStmt fuel) := by
  induction fuel with
  | zero => exact .outOfFuel
  | succ fuel ih =>
    refine Local.current_bind fun t _ ↦ ?_
    split
    · exact (parseBinding_clean (by decide)).of_true
    · exact (parseBinding_clean (by decide)).of_true
    · exact (parseBinding_clean (by decide)).of_true
    · exact parseReturn_clean.of_true
    · exact (parseIf_clean ih _).of_true
    · exact (parseFor_clean ih).of_true
    · exact (parseMatch_clean ih).of_true
    · exact parsePrint_clean.of_true
    · exact (parseUnsafe_clean ih).of_true
    · exact parseExprOrAssign_clean.of_true

/-! ## Declarations -/

theorem maybe_near : Near (maybe ty) := maybe_local fun _ _ ↦ trivial

theorem ifMaybe_near (hp : Near p) (hq : Near q) : Near (ifMaybe ty p q) :=
  ifMaybe_local (fun _ _ ↦ trivial) hp hq

theorem paramRound_near (params : List Param) : Near (paramRound fuel params) := by
  refine ifAt_local (.pure _) (.bind (ifAt_local (eat_near.bind fun _ ↦ .pure _) (.pure _))
    fun mutable ↦ eat_near.bind fun name ↦ eat_near.bind fun _ ↦ ?_)
  exact parseType_clean.near.bind fun ty ↦ ifAssign_clean.near.bind fun default ↦
    ifMaybe_near (.pure _) (.pure _)

theorem parseParams_near : Near (parseParams fuel) := .loop paramRound_near fuel []

theorem parseSignature_near : Near (parseSignature fuel) :=
  eat_near.bind fun _ ↦ parseParams_near.bind fun _ ↦ eat_near.bind fun _ ↦
    (ifMaybe_near parseType_clean.near (.pure _)).bind_pure

theorem parseExprBody_near : Near (parseExprBody fuel) :=
  (eatCur_local fun _ _ ↦ trivial).bind fun _ ↦ parseExpr_clean.near.bind fun _ ↦
    maybe_near.bind fun _ ↦ .pure _

theorem parseFnBody_near : Near (parseFnBody fuel) := by
  refine ifAt_local parseExprBody_near <| ifAt_local parseExprBody_near <| ifAt_local ?_ ?_
  · exact (parseBlock_clean parseStmt_clean).near.bind_pure
  · exact Local.current.bind fun _ ↦ .fail _

theorem parseFn_near (isAsync isUnsafe : Bool) : Near (parseFn fuel isAsync isUnsafe) := by
  refine .bind (.ite (fun _ ↦ eat_near.bind_pure) fun _ ↦ .pure _) fun _ ↦ eat_near.bind fun _ ↦ ?_
  refine .bind (ifAtThen_local (eat_near.bind fun _ ↦ eat_near.bind_pure) (.pure _))
    fun receiver ↦ ?_
  exact eat_near.bind fun _ ↦ parseSignature_near.bind fun _ ↦ parseFnBody_near.bind_pure

/-- What `skipOptionalParens` does behind the opening parenthesis. -/
theorem skipLoop_near : Near (do
    whileLoop (ifAt .rParen (return false) (return !(← isAt .eof))) (fun _ ↦ advance) fuel ()
    let _ ← attempt (eat .rParen)
    return ()) := by
  have hcond : Near (ifAt .rParen (return false) (return !(← isAt .eof))) :=
    ifAt_local (.pure _) (isAt_local (.pure _) (.pure _))
  exact (Local.whileLoop hcond (fun _ ↦ Local.advance fun _ _ ↦ trivial) fuel ()).bind fun _ ↦
    eat_near.attempt.bind fun _ ↦ .pure _

theorem skipOptionalParens_near : Near (skipOptionalParens fuel) :=
  ifAt_local (eat_near.attempt.bind fun _ ↦ skipLoop_near) (.pure _)

theorem parseBase_near : Near (parseBase fuel) :=
  eat_near.bind fun _ ↦ skipOptionalParens_near.bind_pure

theorem parseMember_near : Near (parseMember fuel) :=
  ifAt_local (parseFn_near _ _) (Local.current.bind fun _ ↦ .fail _)

theorem classParams_near : Near (ifMaybe .lParen (do
    let params ← parseParams fuel
    let _ ← eat .rParen
    return params) (return [])) :=
  ifMaybe_near (parseParams_near.bind fun _ ↦ eat_near.bind fun _ ↦ .pure _) (.pure _)

theorem moreItems_near {item : P α} (hitem : Near item) (out : List α) :
    Near (moreItems item fuel out) :=
  whileMaybe_local (fun _ _ ↦ trivial) (fun _ ↦ hitem.bind_pure) out

theorem classMembers_near : Near (ifMaybe .lBrace (do
    let members ← whileNotAt .rBrace (parseMember fuel) fuel
    let _ ← eat .rBrace
    return (members, ([] : List ClassDecl))) (return ([], []))) :=
  ifMaybe_near ((whileNotAt_local parseMember_near).bind fun _ ↦ eat_near.bind fun _ ↦ .pure _)
    (.pure _)

theorem parseClass_near (depth : ℕ) (isData isSealed : Bool) :
    Near (parseClass fuel depth isData isSealed) := by
  induction depth generalizing isData isSealed with
  | zero => exact .outOfFuel
  | succ depth ih =>
    refine eat_near.bind fun name ↦ classParams_near.bind fun params ↦ .bind (ifMaybe_near
      (parseBase_near.bind fun _ ↦ moreItems_near parseBase_near _) (.pure _)) fun bases ↦ ?_
    refine .bind (.ite (fun _ ↦ ifAtThen_local (eat_near.bind fun _ ↦ ?_) classMembers_near)
      fun _ ↦ classMembers_near) fun body ↦ .pure _
    -- the subclasses of a sealed class
    exact (whileNotAt_local (eat_near.bind fun _ ↦ ih false false)).bind fun _ ↦
      eat_near.bind fun _ ↦ .pure _

end Agex

end Zeroxos
